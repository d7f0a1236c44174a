import Chip8.Text.Style

/-! # Notices

Lines that tell the user what happens. Each has a category, which decides its colour, and a
condition: in minimal mode only those that are always due are shown, without any styling. -/

namespace Chip8

/-- What a notice is about. -/
inductive Category where
  | normal
  | info
  | warning
  | error
deriving DecidableEq, Repr

/-- The colour of a category. -/
def Category.colour? : Category → Option Style.Colour
  | normal => none
  | info => some .blue
  | warning => some .yellow
  | error => some .red

/-- When a notice is shown. -/
inductive Condition where
  | always
  /-- Unless in minimal mode. -/
  | sometimes
deriving DecidableEq, Repr

/-- A line for the user. -/
structure Notice where
  condition : Condition
  category : Category
  text : String
deriving DecidableEq, Repr

namespace Notice

/-- The notice as it is shown, with or without colours. -/
def render (minimal coloured : Bool) (n : Notice) : String :=
  if minimal then
    match n.condition with
    | .always => String.ofList (Style.plain n.text.toList)
    | .sometimes => ""
  else
    match n.category.colour? with
    | some colour => if coloured then String.ofList (colour.paint n.text.toList) else n.text
    | none => n.text

/-- Without colours a notice is shown as it is. -/
theorem render_plain (n : Notice) : n.render false false = n.text := by
  unfold render
  cases n.category.colour? <;> rfl

end Notice

end Chip8
