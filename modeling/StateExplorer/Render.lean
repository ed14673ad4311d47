/-!
# Texts of values

`Render` gives the text under which a value appears in journals and descriptions. Optional values,
pairs and lists are written around the texts of their parts.
-/

namespace StateExplorer

/-- Types whose values have a text. -/
class Render (α : Type) where
  /-- The text of a value. -/
  render : α → String

export Render (render)

variable {α β : Type}

instance : Render Nat where
  render n := String.ofList (Nat.toDigits 10 n)

instance : Render Bool where
  render b := if b then "true" else "false"

instance [Render α] : Render (Option α) where
  render
    | none => "None"
    | some a => s!"Some({render a})"

instance [Render α] [Render β] : Render (α × β) where
  render p := s!"({render p.1}, {render p.2})"

/-- The texts of the items of a list with a separator between them. -/
def renderJoined [Render α] (separator : String) (items : List α) : String :=
  String.intercalate separator (items.map render)

instance [Render α] : Render (List α) where
  render items := "[" ++ renderJoined ", " items ++ "]"

end StateExplorer
