/-! # Screen

The monochrome picture of the machine.

* A `Frame` is a picture: width, height and one bit for each pixel, row after row.
* A `Screen` is the picture being drawn and a flag that tells whether it changed since a frame was
  last taken from it.
* **Drawing** inverts the pixels under the set bits of a sprite, whose rows are bytes with the
  leftmost pixel in the highest bit. Columns and rows wrap around the edges independently. The
  drawing collides if it turns a set pixel off.
* **Coordinates** are sizes, which are 64-bit words, so what is added to them wraps at the last size
  before it wraps at an edge. The position of a pixel is below the number of the pixels and wraps
  nowhere. -/

namespace Chip8

/-- The number of values of a size. -/
def sizeLimit : Nat := 0x10000000000000000

/-- The size that is left of a sum of coordinates. -/
def coordinate (sum : Nat) : Nat := sum % sizeLimit

theorem coordinate_of_lt {sum : Nat} (h : sum < sizeLimit) : coordinate sum = sum :=
  Nat.mod_eq_of_lt h

/-- A picture. -/
structure Frame where
  width : Nat
  height : Nat
  pixels : Array Bool
deriving DecidableEq, Repr

namespace Frame

/-- A picture with no pixel set. -/
def blank (width height : Nat) : Frame := ⟨width, height, Array.replicate (width * height) false⟩

/-- The position of the pixel that the coordinates stand for after wrapping. -/
def index (f : Frame) (x y : Nat) : Nat := y % f.height * f.width + x % f.width

/-- Whether a pixel is set; no pixel outside of the picture is. -/
def pixel (f : Frame) (x y : Nat) : Bool :=
  decide (x < f.width) && decide (y < f.height) && f.pixels.getD (y * f.width + x) false

/-- The number of pixels that are set. -/
def lit (f : Frame) : Nat := f.pixels.count true

/-- Invert a pixel and tell whether it was set before. -/
def toggle (f : Frame) (x y : Nat) : Frame × Bool :=
  let i := f.index x y
  let old := f.pixels.getD i false
  ({ f with pixels := f.pixels.setIfInBounds i (!old) }, old)

/-- The columns of the set bits of a sprite row, from the left. -/
def setColumns (row : UInt8) : List Nat :=
  (List.range 8).filter fun c => row.toNat.testBit (7 - c)

/-- Invert the pixels of one row of a sprite from `x` on. -/
def drawRow (x y : Nat) (acc : Frame × Bool) (row : UInt8) : Frame × Bool :=
  (setColumns row).foldl
    (fun acc c => let (f, old) := acc.1.toggle (coordinate (x + c)) y; (f, acc.2 || old)) acc

/-- Draw the rows of a sprite one below the other. -/
def drawRows (x y : Nat) (acc : Frame × Bool) : List UInt8 → Frame × Bool
  | [] => acc
  | row :: rows => drawRows x (y + 1) (drawRow x (coordinate y) acc row) rows

/-- Draw a sprite with its upper left corner at the coordinates; tells whether it collides. -/
def draw (f : Frame) (x y : Nat) (sprite : List UInt8) : Frame × Bool :=
  drawRows x y (f, false) sprite

theorem toggle_width (f : Frame) (x y : Nat) : (f.toggle x y).1.width = f.width := rfl

theorem toggle_height (f : Frame) (x y : Nat) : (f.toggle x y).1.height = f.height := rfl

theorem toggle_size (f : Frame) (x y : Nat) : (f.toggle x y).1.pixels.size = f.pixels.size := by
  simp [toggle]

end Frame

/-- A picture being drawn. -/
structure Screen where
  frame : Frame
  dirty : Bool
deriving DecidableEq, Repr

namespace Screen

/-- A blank screen, which no frame was taken from yet. -/
def blank (width height : Nat) : Screen := ⟨Frame.blank width height, true⟩

/-- Whether the pixel that the coordinates stand for after wrapping is set. -/
def pixel (s : Screen) (x y : Nat) : Bool := s.frame.pixels.getD (s.frame.index x y) false

/-- Turn every pixel off. -/
def clear (s : Screen) : Screen := blank s.frame.width s.frame.height

/-- Draw a sprite; tells whether it collides. -/
def draw (s : Screen) (x y : Nat) (sprite : List UInt8) : Screen × Bool :=
  let (frame, collides) := s.frame.draw x y sprite
  (⟨frame, true⟩, collides)

/-- Take the current picture, after which the screen is no longer dirty. -/
def takeFrame (s : Screen) : Frame × Screen := (s.frame, { s with dirty := false })

end Screen

end Chip8
