import Chip8.Machine.Keyboard
import Chip8.Machine.Timer
import Chip8.Proofs.Machine.Memory
import Chip8.Proofs.Machine.Screen

/-! # Checked parts of a machine

Words, memory, picture, keyboard and timer once more, as programs in `Option` that trap (`none`)
where a step goes wrong:

* an index outside of its buffer, a remainder by zero,
* a sum or product that does not fit its width (`byteLimit`, `wordLimit`, `sizeLimit`), a difference
  below zero, a shift by the whole width or more.

Sums that a handler wraps on purpose (`ADD Vx, Vy`, `SUB`, `SUBN`) stay as they are. Buffers are
taken as they lie in storage: the pixels eight to a byte, the font in cells that are not wrapped.

For every definition `f` the theorem `f_eq` says when its checked form `f?` does not trap, and that
it computes `f` then. -/

namespace Chip8

/-- The number of values of a byte. -/
def byteLimit : Nat := 0x100

/-- The number of values of a word. -/
def wordLimit : Nat := 0x10000

namespace Checked

/-- A number that has to be below a limit. -/
def within (limit n : Nat) : Option Nat := if n < limit then some n else none

/-- A difference that has to be a number. -/
def minus (a b : Nat) : Option Nat := if b ≤ a then some (a - b) else none

/-- A remainder. -/
def rem (a b : Nat) : Option Nat := if b = 0 then none else some (a % b)

/-- A byte shifted to the right. -/
def shiftRight (v : UInt8) (k : Nat) : Option UInt8 := do
  some (v >>> (← within 8 k).toUInt8)

/-- A byte shifted to the left. -/
def shiftLeft (v : UInt8) (k : Nat) : Option UInt8 := do
  some (v <<< (← within 8 k).toUInt8)

@[simp] theorem within_eq {limit n : Nat} (h : n < limit) : within limit n = some n := if_pos h

@[simp] theorem minus_eq {a b : Nat} (h : b ≤ a) : minus a b = some (a - b) := if_pos h

@[simp] theorem rem_eq {a b : Nat} (h : 0 < b) : rem a b = some (a % b) := if_neg (by omega)

/-- A loop whose body keeps `P`, and does not trap where `P` holds. -/
theorem foldlM_eq {α β : Type} {f : β → α → Option β} {g : β → α → β} {P : β → Prop} {l : List α}
    (hbody : ∀ b, P b → ∀ a ∈ l, f b a = some (g b a) ∧ P (g b a)) {b : β} (hb : P b) :
    l.foldlM f b = some (l.foldl g b) ∧ P (l.foldl g b) := by
  induction l generalizing b with
  | nil => exact ⟨rfl, hb⟩
  | cons a l ih =>
      obtain ⟨hhead, hnext⟩ := hbody b hb a (List.mem_cons_self ..)
      rw [List.foldlM_cons, List.foldl_cons, hhead]
      exact ih (fun b hb a' ha' => hbody b hb a' (List.mem_cons_of_mem _ ha')) hnext

theorem mapM_eq {α β : Type} {f : α → Option β} {g : α → β} {l : List α}
    (hbody : ∀ a ∈ l, f a = some (g a)) : l.mapM f = some (l.map g) := by
  induction l with
  | nil => rfl
  | cons a l ih =>
      rw [List.mapM_cons, hbody a (List.mem_cons_self ..),
        ih fun a' ha' => hbody a' (List.mem_cons_of_mem _ ha')]
      rfl

end Checked

open Checked

/-! ### Fields of a word -/

namespace Word

/-- The four bits of a word from bit `k` on. -/
def nibble? (w : UInt16) (k : Nat) : Option Nat := do
  some ((w.toNat >>> (← within 16 k)) &&& 0xF)

/-- The entry of the table of handlers that a word selects. -/
def family? (w : UInt16) : Option Nat := do
  within 16 (w.toNat >>> (← within 16 12))

theorem nibble_eq (w : UInt16) {k : Nat} (hk : k < 16) :
    nibble? w k = some ((w.toNat >>> k) % 16) := by
  have hlow : (w.toNat >>> k) &&& 0xF = (w.toNat >>> k) % 16 := Nat.and_two_pow_sub_one_eq_mod _ 4
  rw [nibble?, within_eq hk, ← hlow]
  rfl

theorem nibble_x (w : UInt16) : nibble? w 8 = some (x w).val := by
  have hdiv : w.toNat >>> 8 = w.toNat / 0x100 := Nat.shiftRight_eq_div_pow _ 8
  rw [nibble_eq w (by decide), hdiv, x]

theorem nibble_y (w : UInt16) : nibble? w 4 = some (y w).val := by
  have hdiv : w.toNat >>> 4 = w.toNat / 0x10 := Nat.shiftRight_eq_div_pow _ 4
  rw [nibble_eq w (by decide), hdiv, y]

theorem nibble_n (w : UInt16) : nibble? w 0 = some (n w) := by
  rw [nibble_eq w (by decide), Nat.shiftRight_zero, n]

theorem family_eq (w : UInt16) : family? w = some (family w) := by
  have hdiv : w.toNat >>> 12 = family w := Nat.shiftRight_eq_div_pow _ 12
  simp [family?, hdiv, family_lt w]

end Word

/-- The register of a number. -/
def Reg.ofNat? (r : Nat) : Option Reg := if h : r < 16 then some ⟨r, h⟩ else none

@[simp] theorem Reg.ofNat_eq (r : Reg) : Reg.ofNat? r.val = some r := dif_pos r.isLt

/-- The low four bits of a byte by a mask. -/
theorem toNat_and_nibble (b : UInt8) : (b &&& 0xF).toNat = (lowNibble b).val := by
  rw [UInt8.toNat_and]
  exact Nat.and_two_pow_sub_one_eq_mod _ 4

/-! ### Memory -/

namespace Memory

variable {m : Memory} {a i : Nat} {bs : List UInt8}

/-- The cell that an address stands for. -/
def cell? (m : Memory) (a : Nat) : Option Nat := rem a m.size

def byte? (m : Memory) (a : Nat) : Option UInt8 := do m.cells[← m.cell? a]?

/-- Write a cell. -/
def setCell? (m : Memory) (i : Nat) (value : UInt8) : Option Memory :=
  if h : i < m.cells.size then some ⟨m.cells.set i value h⟩ else none

def setByte? (m : Memory) (a : Nat) (value : UInt8) : Option Memory := do
  m.setCell? (← m.cell? a) value

def word? (m : Memory) (a : UInt16) : Option UInt16 := do
  let high ← m.byte? a.toNat
  let low ← m.byte? (← within sizeLimit (a.toNat + 1))
  some (high.toUInt16 * 0x100 + low.toUInt16)

def store? (m : Memory) (a : Nat) : List UInt8 → Option Memory
  | [] => some m
  | b :: bs => do (← m.setByte? (← within sizeLimit a) b).store? (a + 1) bs

/-- Write bytes to cells that stand one behind the other. -/
def fill? (m : Memory) (i : Nat) : List UInt8 → Option Memory
  | [] => some m
  | b :: bs => do (← m.setCell? i b).fill? (i + 1) bs

/-- A memory of zeros with the font in its first cells. -/
def blank? (size : Nat) : Option Memory := (Memory.mk (Array.replicate size 0)).fill? 0 glyphs

def load? (m : Memory) (a : UInt16) (bytes : List UInt8) : Option (Except LoadError Memory) :=
  if m.size < bytes.length then some (.error (.tooLarge bytes.length m.size))
  else do some (.ok (← m.store? a.toNat bytes))

def loadFrom? (m : Memory) (a : UInt16) (source : ByteSource) :
    Option (Except LoadError Memory) :=
  match source.drain with
  | .ok bytes => m.load? a bytes
  | .error e => some (.error e)

theorem byte_eq (hm : 0 < m.size) (a : Nat) : m.byte? a = some (m.byte a) := by
  have hlt : m.wrap a < m.cells.size := Nat.mod_lt _ hm
  have hcell : m.cell? a = some (m.wrap a) := rem_eq hm
  simp [byte?, hcell, byte, hlt]

theorem setCell_eq (hi : i < m.size) (value : UInt8) :
    m.setCell? i value = some (m.setByte i value) := by
  have hwrap : m.wrap i = i := Nat.mod_eq_of_lt hi
  have hcells : i < m.cells.size := hi
  simp [setCell?, setByte, hwrap, hcells, Array.setIfInBounds]

theorem setByte_eq (hm : 0 < m.size) (a : Nat) (value : UInt8) :
    m.setByte? a value = some (m.setByte a value) := by
  have hcell : m.cell? a = some (m.wrap a) := rem_eq hm
  have hlt : m.wrap a < m.size := Nat.mod_lt _ hm
  have hself : m.wrap (m.wrap a) = m.wrap a := Nat.mod_mod _ _
  simp [setByte?, hcell, setCell_eq hlt, setByte, hself]

theorem word_eq (hm : 0 < m.size) (a : UInt16) : m.word? a = some (m.word a) := by
  have ha := a.toNat_lt
  have hnext : a.toNat + 1 < sizeLimit := by unfold sizeLimit; omega
  simp [word?, byte_eq hm, hnext, word]

theorem store_eq (hm : 0 < m.size) (hend : a + bs.length ≤ sizeLimit) :
    m.store? a bs = some (m.store a bs) := by
  induction bs generalizing m a with
  | nil => rfl
  | cons b bs ih =>
      rw [List.length_cons] at hend
      have ha : a < sizeLimit := by omega
      have htail := ih (m := m.setByte a b) (a := a + 1) (by rwa [size_setByte]) (by omega)
      simp [store?, store, ha, setByte_eq hm, htail]

theorem fill_eq (hend : i + bs.length ≤ m.size) : m.fill? i bs = some (m.store i bs) := by
  induction bs generalizing m i with
  | nil => rfl
  | cons b bs ih =>
      rw [List.length_cons] at hend
      have htail := ih (m := m.setByte i b) (i := i + 1) (by rw [size_setByte]; omega)
      simp [fill?, store, setCell_eq (show i < m.size by omega), htail]

/-- The font has room in a memory that passes the check of its configuration. -/
theorem blank_eq {size : Nat} (hsize : 80 ≤ size) : blank? size = some (blank size) := by
  refine fill_eq ?_
  show 0 + 80 ≤ (Array.replicate size (0 : UInt8)).size
  rw [Array.size_replicate]
  omega

theorem load_eq (hm : 0 < m.size) (hmax : m.size ≤ wordLimit) (a : UInt16) :
    m.load? a bs = some (m.load a bs) := by
  unfold load? load
  split
  · rfl
  · have ha := a.toNat_lt
    have hend : a.toNat + bs.length ≤ sizeLimit := by
      unfold wordLimit at hmax
      unfold sizeLimit
      omega
    simp [store_eq hm hend]

theorem loadFrom_eq (hm : 0 < m.size) (hmax : m.size ≤ wordLimit) (a : UInt16)
    (source : ByteSource) : m.loadFrom? a source = some (m.loadFrom a source) := by
  unfold loadFrom? loadFrom
  cases source.drain with
  | error e => rfl
  | ok bytes => exact load_eq hm hmax a

end Memory

/-! ### Picture -/

namespace Frame

variable {f : Frame} {x y : Nat}

/-- The bit of a pixel, whose byte has to be in the buffer. -/
def locate? (f : Frame) (x y : Nat) : Option Nat := do
  let column ← rem x f.width
  let row ← rem y f.height
  let bit ← within sizeLimit ((← within sizeLimit (row * f.width)) + column)
  let byte ← within (f.width * f.height / 8) (bit / 8)
  let place ← within 8 (bit % 8)
  some (8 * byte + place)

def toggle? (f : Frame) (x y : Nat) : Option (Frame × Bool) := do
  let i ← f.locate? x y
  if h : i < f.pixels.size then
    some ({ f with pixels := f.pixels.set i (!f.pixels[i]) h }, f.pixels[i])
  else none

def drawRow? (x y : Nat) (acc : Frame × Bool) (row : UInt8) : Option (Frame × Bool) :=
  (setColumns row).foldlM
    (fun acc c => do
      let (f, old) ← acc.1.toggle? (← within sizeLimit (x + (← within 8 c))) y
      some (f, acc.2 || old)) acc

def drawRows? (x y : Nat) (acc : Frame × Bool) : List UInt8 → Option (Frame × Bool)
  | [] => some acc
  | row :: rows => do drawRows? x (y + 1) (← drawRow? x (← within sizeLimit y) acc row) rows

def draw? (f : Frame) (x y : Nat) (sprite : List UInt8) : Option (Frame × Bool) :=
  drawRows? x y (f, false) sprite

/-- The pixels fill whole bytes, and as many as the sides of the picture say. -/
structure Packed (f : Frame) : Prop where
  width : 0 < f.width
  height : 0 < f.height
  bytes : f.width % 8 = 0
  pixels : f.pixels.size = f.width * f.height
  area : f.width * f.height < sizeLimit

theorem Packed.of_shape {g : Frame} (h : f.Packed) (hshape : g.shape = f.shape) : g.Packed := by
  have hwidth : g.width = f.width := congrArg Prod.fst hshape
  have hheight : g.height = f.height := congrArg (fun shape => shape.2.1) hshape
  have hpixels : g.pixels.size = f.pixels.size := congrArg (fun shape => shape.2.2) hshape
  exact ⟨hwidth ▸ h.width, hheight ▸ h.height, hwidth ▸ h.bytes,
    by rw [hpixels, hwidth, hheight, h.pixels], by rw [hwidth, hheight]; exact h.area⟩

theorem Packed.index_lt (h : f.Packed) (x y : Nat) : f.index x y < f.width * f.height :=
  Frame.index_lt h.width h.height x y

theorem Packed.locate_eq (h : f.Packed) (x y : Nat) : f.locate? x y = some (f.index x y) := by
  have hlt := h.index_lt x y
  have hbit : f.index x y < sizeLimit := Nat.lt_trans hlt h.area
  have hrow : y % f.height * f.width < sizeLimit := by
    have hle : y % f.height * f.width ≤ f.index x y := Nat.le_add_right _ _
    omega
  have hsum : y % f.height * f.width + x % f.width = f.index x y := rfl
  -- whole bytes: the division of the area leaves nothing over
  have hwhole : f.width * f.height % 8 = 0 := by
    rw [Nat.mul_mod, h.bytes, Nat.zero_mul, Nat.zero_mod]
  have hbyte : f.index x y / 8 < f.width * f.height / 8 := by omega
  have hplace : f.index x y % 8 < 8 := Nat.mod_lt _ (by decide)
  simp [locate?, h.width, h.height, hrow, hsum, hbit, hbyte, hplace, Nat.div_add_mod]

theorem Packed.toggle_eq (h : f.Packed) (x y : Nat) : f.toggle? x y = some (f.toggle x y) := by
  have hlt : f.index x y < f.pixels.size := h.pixels ▸ h.index_lt x y
  simp [toggle?, h.locate_eq, hlt, toggle, Array.setIfInBounds]

theorem drawRow_eq {acc : Frame × Bool} (h : acc.1.Packed) (hx : x + 8 ≤ sizeLimit)
    (row : UInt8) : drawRow? x y acc row = some (drawRow x y acc row) := by
  refine (foldlM_eq (P := fun acc => acc.1.Packed) ?_ h).1
  intro acc hacc c hc
  have hcolumn : c < 8 := setColumns_lt hc
  have hsum : x + c < sizeLimit := by omega
  refine ⟨?_, hacc.of_shape (shape_toggle acc.1 (coordinate (x + c)) y)⟩
  simp [hcolumn, hsum, hacc.toggle_eq, coordinate_of_lt]

theorem drawRows_eq {acc : Frame × Bool} (h : acc.1.Packed) (hx : x + 8 ≤ sizeLimit)
    {rows : List UInt8} (hy : y + rows.length ≤ sizeLimit) :
    drawRows? x y acc rows = some (drawRows x y acc rows) := by
  induction rows generalizing y acc with
  | nil => rfl
  | cons row rows ih =>
      rw [List.length_cons] at hy
      have hrow : y < sizeLimit := by omega
      have htail := ih (h.of_shape (shape_drawRow x y acc row)) (y := y + 1) (by omega)
      simp [drawRows?, drawRows, hrow, coordinate_of_lt, drawRow_eq h hx, htail]

/-- **Drawing stays in the picture.** -/
theorem Packed.draw_eq (h : f.Packed) (hx : x + 8 ≤ sizeLimit) {sprite : List UInt8}
    (hy : y + sprite.length ≤ sizeLimit) : f.draw? x y sprite = some (f.draw x y sprite) :=
  drawRows_eq h hx hy

end Frame

namespace Screen

def draw? (s : Screen) (x y : Nat) (sprite : List UInt8) : Option (Screen × Bool) := do
  let (frame, collides) ← s.frame.draw? x y sprite
  some (⟨frame, true⟩, collides)

theorem draw_eq {s : Screen} (h : s.frame.Packed) {x y : Nat} (hx : x + 8 ≤ sizeLimit)
    {sprite : List UInt8} (hy : y + sprite.length ≤ sizeLimit) :
    s.draw? x y sprite = some (s.draw x y sprite) := by
  simp [draw?, draw, h.draw_eq hx hy]

end Screen

/-! ### Keyboard and timer -/

/-- The key of a code. Its bit in the word of held keys is found by a shift. -/
def Key.ofCode? (code : UInt8) : Option Key := Reg.ofNat? (code &&& 0xF).toNat

theorem Key.ofCode_eq (code : UInt8) : Key.ofCode? code = some (Key.ofCode code) := by
  rw [Key.ofCode?, toNat_and_nibble, Reg.ofNat_eq, Key.ofCode]

namespace Keyboard

/-- Set the state of the key of a code. -/
def put? (k : Keyboard) (code : UInt8) (down : Bool) : Option Keyboard :=
  if h : (code &&& 0xF).toNat < 16 then some ⟨k.held.set (code &&& 0xF).toNat down h⟩ else none

def isPressed? (k : Keyboard) (code : UInt8) : Option Bool := do
  k.held[(← Key.ofCode? code).val]?

theorem press_eq (k : Keyboard) (code : UInt8) : k.put? code true = some (k.press code) := by
  simp only [put?, toNat_and_nibble]
  exact dif_pos (lowNibble code).isLt

theorem release_eq (k : Keyboard) (code : UInt8) : k.put? code false = some (k.release code) := by
  simp only [put?, toNat_and_nibble]
  exact dif_pos (lowNibble code).isLt

theorem isPressed_eq (k : Keyboard) (code : UInt8) :
    k.isPressed? code = some (k.isPressed code) := by
  simp [isPressed?, Key.ofCode_eq, isPressed]

end Keyboard

/-- Count down once; the value is not zero where one is taken off. -/
def Timer.pulse? (t : Timer) : Option (Timer × Bool) :=
  if t.value = 0 then some (t, false)
  else do
    let value ← minus t.value.toNat 1
    some (⟨value.toUInt8⟩, value = 0)

theorem Timer.pulse_eq (t : Timer) : t.pulse? = some t.pulse := by
  have hvalue := t.pulse_value
  unfold Timer.pulse? Timer.pulse at *
  split
  · rfl
  · rename_i hne
    rw [if_neg hne] at hvalue
    have hpos : 1 ≤ t.value.toNat := by
      have hzero : t.value.toNat ≠ 0 := fun e => hne (UInt8.toNat_inj.mp e)
      omega
    have hback : (t.value.toNat - 1).toUInt8 = t.value - 1 := by
      rw [← hvalue]
      exact UInt8.ofNat_toNat
    have hended : (t.value.toNat - 1 = 0) ↔ t.value - 1 = 0 := by
      rw [← hvalue]
      exact UInt8.toNat_inj (b := 0)
    simp [hpos, hback, hended]

end Chip8
