/-! # Terminal styles

Colour of diagnostic lines by escape sequences.

* A line in a colour is wrapped in the colour's sequence and the reset sequence; a reset inside the
  line is followed by the colour again, so that it ends at the line's end only.
* `plain` removes every escape sequence: all from an escape character up to the next `m`. -/

namespace Chip8.Style

/-- The colours of diagnostic lines. -/
inductive Colour where
  | blue
  | yellow
  | red
deriving DecidableEq, Repr

/-- The character that opens an escape sequence. -/
def escape : Char := '\x1b'

/-- The sequence that turns a colour on. -/
def Colour.sequence : Colour → List Char
  | .blue => escape :: "[34m".toList
  | .yellow => escape :: "[33m".toList
  | .red => escape :: "[31m".toList

/-- The sequence that turns every colour off. -/
def reset : List Char := escape :: "[0m".toList

/-- Put `again` after every reset sequence. -/
def resume (again : List Char) : List Char → List Char
  | '\x1b' :: '[' :: '0' :: 'm' :: cs => reset ++ again ++ resume again cs
  | c :: cs => c :: resume again cs
  | [] => []

/-- The text in a colour. -/
def Colour.paint (colour : Colour) (text : List Char) : List Char :=
  colour.sequence ++ resume colour.sequence text ++ reset

/-- Remove escape sequences; `inside` tells whether one is open. -/
def plainFrom : Bool → List Char → List Char
  | _, [] => []
  | true, c :: cs => plainFrom (c != 'm') cs
  | false, c :: cs => if c = escape then plainFrom true cs else c :: plainFrom false cs

/-- The text without its escape sequences. An unfinished sequence runs to the end. -/
def plain (text : List Char) : List Char := plainFrom false text

/-- Text without escape characters is left alone. -/
theorem plain_of_not_mem {cs : List Char} (h : escape ∉ cs) : plain cs = cs := by
  unfold plain
  induction cs with
  | nil => rfl
  | cons c cs ih =>
      simp only [List.mem_cons, not_or] at h
      rw [plainFrom, if_neg (Ne.symm h.1), ih h.2]

end Chip8.Style
