import Chip8.Machine.Screen

/-! # Shape of a picture

Drawing changes pixels and never the size of a picture. -/

namespace Chip8.Frame

/-- The two sides of a picture and the number of its pixels. -/
def shape (f : Frame) : Nat × Nat × Nat := (f.width, f.height, f.pixels.size)

theorem shape_blank (width height : Nat) :
    (blank width height).shape = (width, height, width * height) := by
  rw [shape, blank, Array.size_replicate]

theorem shape_toggle (f : Frame) (x y : Nat) : (f.toggle x y).1.shape = f.shape := by
  rw [shape, toggle_width, toggle_height, toggle_size, shape]

theorem setColumns_lt {row : UInt8} {c : Nat} (hc : c ∈ setColumns row) : c < 8 :=
  List.mem_range.mp (List.mem_filter.mp hc).1

theorem shape_drawRow (x y : Nat) (acc : Frame × Bool) (row : UInt8) :
    (drawRow x y acc row).1.shape = acc.1.shape := by
  unfold drawRow
  induction setColumns row generalizing acc with
  | nil => rfl
  | cons c cs ih =>
      rw [List.foldl_cons, ih]
      exact shape_toggle acc.1 (coordinate (x + c)) y

theorem shape_drawRows (x y : Nat) (acc : Frame × Bool) (rows : List UInt8) :
    (drawRows x y acc rows).1.shape = acc.1.shape := by
  induction rows generalizing y acc with
  | nil => rfl
  | cons row rows ih => rw [drawRows, ih, shape_drawRow]

theorem shape_draw (f : Frame) (x y : Nat) (sprite : List UInt8) :
    (f.draw x y sprite).1.shape = f.shape :=
  shape_drawRows x y (f, false) sprite

/-- Pictures of one shape agree in all of its parts. -/
theorem sides_of_shape {f g : Frame} (h : g.shape = f.shape) :
    g.width = f.width ∧ g.height = f.height ∧ g.pixels.size = f.pixels.size := by
  simpa [shape] using h

/-- A place in a row and a column lies below the area. -/
theorem place_lt {width height px py : Nat} (hx : px < width) (hy : py < height) :
    py * width + px < width * height := by
  calc py * width + px < py * width + width := Nat.add_lt_add_left hx _
    _ = width * (py + 1) := by rw [Nat.mul_add_one, Nat.mul_comm]
    _ ≤ width * height := Nat.mul_le_mul_left _ hy

theorem index_lt {f : Frame} (hwidth : 0 < f.width) (hheight : 0 < f.height) (x y : Nat) :
    f.index x y < f.width * f.height :=
  place_lt (Nat.mod_lt _ hwidth) (Nat.mod_lt _ hheight)

end Chip8.Frame

namespace Chip8.Screen

theorem shape_draw (s : Screen) (x y : Nat) (sprite : List UInt8) :
    (s.draw x y sprite).1.frame.shape = s.frame.shape :=
  Frame.shape_draw s.frame x y sprite

theorem shape_clear {s : Screen} {width height : Nat}
    (h : s.frame.shape = (width, height, width * height)) :
    s.clear.frame.shape = (width, height, width * height) := by
  have hwidth : s.frame.width = width := congrArg Prod.fst h
  have hheight : s.frame.height = height := congrArg (fun shape => shape.2.1) h
  rw [clear, hwidth, hheight]
  exact Frame.shape_blank width height

end Chip8.Screen
