import Chip8.Text.Numeral

/-! # Memory

The flat byte store of the machine.

* **Addresses** are 16-bit words (or sums of them); every one is reduced modulo the size.
* **Glyphs.** A blank memory holds the hexadecimal font at address 0 and zeros behind it.
* **Loading** writes a stream of bytes from an address on, past the end back at the start. A stream
  longer than the memory is refused, and so is one whose source fails before its end; in both cases
  no cell changes. -/

namespace Chip8

/-- The built-in font, five bytes for each hexadecimal digit. -/
def glyphs : List UInt8 :=
  [0xF0, 0x90, 0x90, 0x90, 0xF0,
   0x20, 0x60, 0x20, 0x20, 0x70,
   0xF0, 0x10, 0xF0, 0x80, 0xF0,
   0xF0, 0x10, 0xF0, 0x10, 0xF0,
   0x90, 0x90, 0xF0, 0x10, 0x10,
   0xF0, 0x80, 0xF0, 0x10, 0xF0,
   0xF0, 0x80, 0xF0, 0x90, 0xF0,
   0xF0, 0x10, 0x20, 0x40, 0x40,
   0xF0, 0x90, 0xF0, 0x90, 0xF0,
   0xF0, 0x90, 0xF0, 0x10, 0xF0,
   0xF0, 0x90, 0xF0, 0x90, 0x90,
   0xE0, 0x90, 0xE0, 0x90, 0xE0,
   0xF0, 0x80, 0x80, 0x80, 0xF0,
   0xE0, 0x90, 0x90, 0x90, 0xE0,
   0xF0, 0x80, 0xF0, 0x80, 0xF0,
   0xF0, 0x80, 0xF0, 0x80, 0x80]

/-- The number of bytes of one glyph. -/
def glyphHeight : UInt16 := 5

/-- Why a binary could not be loaded. -/
inductive LoadError where
  | tooLarge (length capacity : Nat)
  | unreadable (reason : String)
deriving DecidableEq, Repr

def LoadError.message : LoadError → String
  | .tooLarge length capacity =>
      "binary of " ++ Numeral.decimal length ++ " bytes does not fit into " ++
        Numeral.decimal capacity ++ " bytes of memory"
  | .unreadable reason => "failed to read binary: " ++ reason

/-- A source of bytes: those that it yields, and how it fails after them if it does. -/
structure ByteSource where
  bytes : List UInt8
  failure : Option String
deriving DecidableEq, Repr

/-- Everything that a source yields. -/
def ByteSource.drain (s : ByteSource) : Except LoadError (List UInt8) :=
  match s.failure with
  | none => .ok s.bytes
  | some reason => .error (.unreadable reason)

/-- A byte store. -/
structure Memory where
  cells : Array UInt8
deriving DecidableEq, Repr

namespace Memory

/-- The number of cells. -/
def size (m : Memory) : Nat := m.cells.size

/-- The cell that an address stands for. -/
def wrap (m : Memory) (a : Nat) : Nat := a % m.size

/-- The byte at an address. -/
def byte (m : Memory) (a : Nat) : UInt8 := m.cells.getD (m.wrap a) 0

/-- Write the byte at an address. -/
def setByte (m : Memory) (a : Nat) (value : UInt8) : Memory :=
  ⟨m.cells.setIfInBounds (m.wrap a) value⟩

def read (m : Memory) (a : UInt16) : UInt8 := m.byte a.toNat

def write (m : Memory) (a : UInt16) (value : UInt8) : Memory := m.setByte a.toNat value

/-- The two bytes from an address on as one word, high byte first. -/
def word (m : Memory) (a : UInt16) : UInt16 :=
  (m.byte a.toNat).toUInt16 * 0x100 + (m.byte (a.toNat + 1)).toUInt16

/-- Write bytes to consecutive addresses. -/
def store (m : Memory) (a : Nat) : List UInt8 → Memory
  | [] => m
  | b :: bs => (m.setByte a b).store (a + 1) bs

/-- A memory of the given size with the font at address 0 and zeros elsewhere. -/
def blank (size : Nat) : Memory := (Memory.mk (Array.replicate size 0)).store 0 glyphs

/-- Blank the memory, keeping its size. -/
def reset (m : Memory) : Memory := blank m.size

/-- Load a binary at an address. -/
def load (m : Memory) (a : UInt16) (bytes : List UInt8) : Except LoadError Memory :=
  if m.size < bytes.length then .error (.tooLarge bytes.length m.size)
  else .ok (m.store a.toNat bytes)

/-- Load all that a source yields at an address. -/
def loadFrom (m : Memory) (a : UInt16) (source : ByteSource) : Except LoadError Memory := do
  m.load a (← source.drain)

@[simp] theorem size_setByte (m : Memory) (a : Nat) (v : UInt8) : (m.setByte a v).size = m.size := by
  simp [size, setByte]

@[simp] theorem size_store (m : Memory) (a : Nat) (bs : List UInt8) :
    (m.store a bs).size = m.size := by
  induction bs generalizing m a with
  | nil => rfl
  | cons b bs ih => rw [store, ih, size_setByte]

@[simp] theorem size_blank (n : Nat) : (blank n).size = n := by
  rw [blank, size_store]
  exact Array.size_replicate

theorem byte_setByte (m : Memory) (a b : Nat) (v : UInt8) (h : 0 < m.size) :
    (m.setByte a v).byte b = if a % m.size = b % m.size then v else m.byte b := by
  have hb : b % m.cells.size < m.cells.size := Nat.mod_lt _ h
  simp [byte, setByte, wrap, size, Array.getD, hb, Array.getElem_setIfInBounds]

end Memory

end Chip8
