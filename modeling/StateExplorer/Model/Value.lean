import StateExplorer.Render

/-!
# Plain values

Models that are given as data have plain values for vertices, configurations and actions: nothing,
integers, texts and lists of values. Values have a text, an order, and a fingerprint of 64 bits.
-/

namespace StateExplorer

/-- A plain value. -/
inductive Value where
  /-- Nothing. -/
  | null
  /-- An integer. -/
  | int (n : Int)
  /-- A text. -/
  | str (s : String)
  /-- A list of values. -/
  | arr (items : List Value)
  deriving Inhabited

namespace Value

mutual

/-- Whether two values are the same. -/
def same : Value → Value → Bool
  | null, null => true
  | int a, int b => a == b
  | str a, str b => a == b
  | arr as, arr bs => sameItems as bs
  | _, _ => false

/-- Whether two lists hold the same values. -/
def sameItems : List Value → List Value → Bool
  | [], [] => true
  | a :: as, b :: bs => same a b && sameItems as bs
  | _, _ => false

end

instance : BEq Value := ⟨same⟩

mutual

theorem same_iff : ∀ a b : Value, same a b = true ↔ a = b
  | null, b => by cases b <;> simp [same]
  | int _, b => by cases b <;> simp [same]
  | str _, b => by cases b <;> simp [same]
  | arr _, null => by simp [same]
  | arr _, int _ => by simp [same]
  | arr _, str _ => by simp [same]
  | arr as, arr bs => by simp [same, sameItems_iff as bs]

theorem sameItems_iff : ∀ as bs : List Value, sameItems as bs = true ↔ as = bs
  | [], [] => by simp [sameItems]
  | [], _ :: _ => by simp [sameItems]
  | _ :: _, [] => by simp [sameItems]
  | a :: as, b :: bs => by simp [sameItems, same_iff a b, sameItems_iff as bs]

end

instance : LawfulBEq Value where
  eq_of_beq h := (same_iff _ _).mp h
  rfl := (same_iff _ _).mpr rfl

instance : DecidableEq Value := fun a b => decidable_of_iff _ (same_iff a b)

mutual

/-- The fingerprint of a value. It wraps around in 64 bits. -/
def fingerprint : Value → UInt64
  | null => 0
  | int n => UInt64.ofInt n
  | str s => s.toUTF8.toList.foldl (fun h byte => h + byte.toUInt64) 0
  | arr items => fingerprintItems 7 items

/-- The fingerprint of a list whose first items have the fingerprint `h`. -/
def fingerprintItems (h : UInt64) : List Value → UInt64
  | [] => h
  | item :: items => fingerprintItems (h * 31 + fingerprint item) items

end

instance : Hashable Value := ⟨fingerprint⟩

mutual

/-- The text of a value. Texts stand between quotation marks as they are. -/
def text : Value → String
  | null => "null"
  | int (.ofNat n) => render n
  | int (.negSucc n) => "-" ++ render (n + 1)
  | str s => "\"" ++ s ++ "\""
  | arr items => "[" ++ ", ".intercalate (texts items) ++ "]"

/-- The texts of the values of a list. -/
def texts : List Value → List String
  | [] => []
  | item :: items => text item :: texts items

end

instance : Render Value := ⟨text⟩

mutual

/-- Orders values: nothing, then integers by size, then texts, then lists by their first difference.
Texts are ordered by their characters. -/
def order : Value → Value → Ordering
  | null, null => .eq
  | null, _ => .lt
  | _, null => .gt
  | int a, int b => compare a b
  | int _, _ => .lt
  | _, int _ => .gt
  | str a, str b => compare a b
  | str _, _ => .lt
  | _, str _ => .gt
  | arr as, arr bs => orderItems as bs

/-- Orders lists of values by their first difference. -/
def orderItems : List Value → List Value → Ordering
  | [], [] => .eq
  | [], _ => .lt
  | _, [] => .gt
  | a :: as, b :: bs => (order a b).then (orderItems as bs)

end

/-- The values of a list in order. -/
def sort (values : List Value) : List Value := values.mergeSort fun a b => (order a b).isLE

/-- A number as a value. -/
def nat (n : Nat) : Value := int n

/-- The number that a value is. -/
def nat? : Value → Option Nat
  | int (.ofNat n) => some n
  | _ => none

/-- A value that may be missing, for which nothing is written. -/
def ofOption (value : Option Value) : Value := value.getD null

/-- The value, or none for nothing. -/
def toOption : Value → Option Value
  | null => none
  | value => some value

end Value

end StateExplorer
