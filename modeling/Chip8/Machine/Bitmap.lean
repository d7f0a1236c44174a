import Chip8.Machine.Screen
import Mathlib.Algebra.GroupWithZero.Nat

/-! # Bitmap

The picture once more, as it lies in storage: eight pixels to a byte, rows one behind the other, the
leftmost pixel of a byte in its highest bit.

* A `Bitmap` is a picture in this form, a `Canvas` the one being drawn together with its flag. They
  are to each other what `Frame` and `Screen` are.
* **Drawing** goes over the rows of the sprite and over the eight columns of each, passes by the
  bits that are not set, and inverts the bit that `locate` finds for each of the others.
* `picture` takes the pixels out of the bytes. -/

namespace Chip8

/-- A picture whose pixels are packed into bytes. -/
structure Bitmap where
  width : Nat
  height : Nat
  bytes : Array UInt8
deriving DecidableEq, Repr

namespace Bitmap

/-- A picture with no pixel set. -/
def blank (width height : Nat) : Bitmap :=
  ⟨width, height, Array.replicate (width * height / 8) 0⟩

/-- The mask of a column, counted from the left. -/
def mask (column : Nat) : UInt8 := 0x80 >>> column.toUInt8

/-- The byte of a bit and the mask for it in there. -/
def place (bit : Nat) : Nat × UInt8 := (bit / 8, mask (bit % 8))

/-- The place of the pixel that the coordinates stand for after wrapping. -/
def locate (b : Bitmap) (x y : Nat) : Nat × UInt8 :=
  place (y % b.height * b.width + x % b.width)

/-- Whether the bit at a place is set. -/
def isSet (b : Bitmap) (p : Nat × UInt8) : Bool := b.bytes.getD p.1 0 &&& p.2 != 0

/-- Invert the bit at a place. -/
def invert (b : Bitmap) (p : Nat × UInt8) : Bitmap :=
  { b with bytes := b.bytes.modify p.1 (· ^^^ p.2) }

/-- Whether a pixel is set; no pixel outside of the picture is. -/
def pixel (b : Bitmap) (x y : Nat) : Bool :=
  if b.width ≤ x ∨ b.height ≤ y then false else b.isSet (place (y * b.width + x))

/-- The number of ones in a byte. -/
def ones (byte : UInt8) : Nat := (List.range 8).countP byte.toNat.testBit

/-- The number of pixels that are set. -/
def lit (b : Bitmap) : Nat := (b.bytes.toList.map ones).sum

/-- Draw what one row of a sprite has in a column. -/
def drawColumn (x y : Nat) (line : UInt8) (acc : Bitmap × Bool) (column : Nat) : Bitmap × Bool :=
  if line &&& mask column = 0 then acc
  else
    let p := acc.1.locate (coordinate (x + column)) y
    (acc.1.invert p, acc.2 || acc.1.isSet p)

/-- Draw one row of a sprite. -/
def drawLine (x y : Nat) (acc : Bitmap × Bool) (line : UInt8) : Bitmap × Bool :=
  (List.range 8).foldl (drawColumn x y line) acc

/-- Draw a sprite with its upper left corner at the coordinates; tells whether it collides. -/
def draw (b : Bitmap) (x y : Nat) (sprite : List UInt8) : Bitmap × Bool :=
  sprite.zipIdx.foldl (fun acc (line, row) => drawLine x (coordinate (y + row)) acc line) (b, false)

/-- The pixels of the picture, row after row. -/
def picture (b : Bitmap) : Frame :=
  ⟨b.width, b.height, Array.ofFn fun i : Fin (b.width * b.height) => b.isSet (place i)⟩

end Bitmap

/-- A bitmap being drawn. -/
structure Canvas where
  bitmap : Bitmap
  dirty : Bool
deriving DecidableEq, Repr

namespace Canvas

/-- A blank canvas, which no bitmap was taken from yet. -/
def blank (width height : Nat) : Canvas := ⟨Bitmap.blank width height, true⟩

/-- Whether the pixel that the coordinates stand for after wrapping is set. -/
def pixel (s : Canvas) (x y : Nat) : Bool := s.bitmap.isSet (s.bitmap.locate x y)

/-- Turn every pixel off. -/
def clear (s : Canvas) : Canvas :=
  ⟨{ s.bitmap with bytes := s.bitmap.bytes.map fun _ => 0 }, true⟩

/-- Draw a sprite; tells whether it collides. -/
def draw (s : Canvas) (x y : Nat) (sprite : List UInt8) : Canvas × Bool :=
  let (bitmap, collides) := s.bitmap.draw x y sprite
  (⟨bitmap, true⟩, collides)

/-- Take the current bitmap, after which the canvas is no longer dirty. -/
def takeFrame (s : Canvas) : Bitmap × Canvas := (s.bitmap, { s with dirty := false })

/-- The screen with the pixels of the canvas. -/
def screen (s : Canvas) : Screen := ⟨s.bitmap.picture, s.dirty⟩

end Canvas

end Chip8
