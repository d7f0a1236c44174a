import Chip8.Asm.Node

/-! # Instruction forms

The ways to write an instruction. A form is a mnemonic and a signature; each slot of the signature
says what an operand has to be and where its value goes in the instruction word.

* `forms` is the table of all forms.
* `matching` finds the forms of a mnemonic, in any letter case, that take given operands.
* `Form.encode` builds the instruction word from the values of the operands. -/

namespace Chip8.Asm

/-- The number of words of so many bits. -/
def wordCount (bits : Nat) : Nat := Nat.pow 2 bits

/-- What an operand has to be. -/
inductive Shape where
  /-- Any register. -/
  | register
  /-- Register zero. -/
  | registerZero
  | word (k : Keyword)
  /-- An expression of 4 bits. -/
  | nibble
  /-- An expression of 8 bits. -/
  | byte
  /-- An expression of 12 bits. -/
  | address
deriving DecidableEq, Repr

namespace Shape

def accepts : Shape → Node → Bool
  | register, .register .. => true
  | registerZero, .register r _ => r = 0
  | word expected, .keyword k _ => expected = k
  | nibble, n | byte, n | address, n => n.isExpression
  | _, _ => false

/-- The width of an expression. -/
def bits : Shape → Option Nat
  | nibble => some 4
  | byte => some 8
  | address => some 12
  | register | registerZero | word _ => none

def text : Shape → String
  | register => "Vx"
  | registerZero => "V0"
  | word k => k.text
  | nibble => "nibble"
  | byte => "byte"
  | address => "addr"

end Shape

/-- Where the value of an operand goes in the instruction word. -/
inductive Field where
  /-- The register in the second nibble. -/
  | x
  /-- The register in the third nibble. -/
  | y
  /-- One register in both nibbles. -/
  | both
  /-- The low bits. -/
  | low
  /-- Nowhere: the operand is part of the form. -/
  | implied
deriving DecidableEq, Repr

/-- The bits that a value contributes to the instruction word. A register counts modulo sixteen. -/
def Field.place (value : UInt16) : Field → UInt16
  | x => (value &&& 0xF) <<< 8
  | y => (value &&& 0xF) <<< 4
  | both => ((value &&& 0xF) <<< 8) ||| ((value &&& 0xF) <<< 4)
  | low => value
  | implied => 0

/-- An operand of a form. -/
structure Slot where
  shape : Shape
  field : Field
deriving DecidableEq, Repr

/-- A way to write an instruction. -/
structure Form where
  mnemonic : String
  /-- The bits of the instruction word that do not depend on the operands. -/
  base : UInt16
  slots : List Slot
deriving DecidableEq, Repr

namespace Form

/-- What the operands have to be. -/
def signature (f : Form) : List Shape := f.slots.map Slot.shape

/-- The mnemonic and the signature. -/
def text (f : Form) : String :=
  match f.signature with
  | [] => f.mnemonic
  | shapes => f.mnemonic ++ " " ++ ", ".intercalate (shapes.map Shape.text)

/-- The instruction word for the values of the operands; registers count by their number. -/
def encode (f : Form) (values : List UInt16) : UInt16 :=
  ((f.slots.zip values).map fun (slot, value) => slot.field.place value).foldl (· ||| ·) f.base

/-- Whether the operands are as the signature demands. -/
def accepts (f : Form) (operands : List Node) : Bool :=
  f.slots.length = operands.length &&
    (f.slots.zip operands).all fun (slot, n) => slot.shape.accepts n

/-- Whether a word is the mnemonic in some letter case. -/
def isNamed (f : Form) (word : List Char) : Bool :=
  word.map Char.toUpper = f.mnemonic.toList

end Form

/-! ### The table -/

namespace Slot

def x : Slot := ⟨.register, .x⟩
def y : Slot := ⟨.register, .y⟩
def both : Slot := ⟨.register, .both⟩
def zero : Slot := ⟨.registerZero, .implied⟩
def byte : Slot := ⟨.byte, .low⟩
def nibble : Slot := ⟨.nibble, .low⟩
def address : Slot := ⟨.address, .low⟩
def word (k : Keyword) : Slot := ⟨.word k, .implied⟩

end Slot

/-- All forms. -/
def forms : List Form :=
  [⟨"CLS", 0x00E0, []⟩,
    ⟨"RET", 0x00EE, []⟩,
    ⟨"JP", 0x1000, [.address]⟩,
    ⟨"JP", 0xB000, [.zero, .address]⟩,
    ⟨"CALL", 0x2000, [.address]⟩,
    ⟨"SE", 0x3000, [.x, .byte]⟩,
    ⟨"SE", 0x5000, [.x, .y]⟩,
    ⟨"SNE", 0x4000, [.x, .byte]⟩,
    ⟨"SNE", 0x9000, [.x, .y]⟩,
    ⟨"LD", 0x6000, [.x, .byte]⟩,
    ⟨"LD", 0x8000, [.x, .y]⟩,
    ⟨"LD", 0xA000, [.word .index, .address]⟩,
    ⟨"LD", 0xF007, [.x, .word .delay]⟩,
    ⟨"LD", 0xF00A, [.x, .word .key]⟩,
    ⟨"LD", 0xF015, [.word .delay, .x]⟩,
    ⟨"LD", 0xF018, [.word .sound, .x]⟩,
    ⟨"LD", 0xF029, [.word .glyph, .x]⟩,
    ⟨"LD", 0xF033, [.word .decimal, .x]⟩,
    ⟨"LD", 0xF055, [.word .indexMemory, .x]⟩,
    ⟨"LD", 0xF065, [.x, .word .indexMemory]⟩,
    ⟨"ADD", 0x7000, [.x, .byte]⟩,
    ⟨"ADD", 0x8004, [.x, .y]⟩,
    ⟨"ADD", 0xF01E, [.word .index, .x]⟩,
    ⟨"OR", 0x8001, [.x, .y]⟩,
    ⟨"AND", 0x8002, [.x, .y]⟩,
    ⟨"XOR", 0x8003, [.x, .y]⟩,
    ⟨"SUB", 0x8005, [.x, .y]⟩,
    ⟨"SHR", 0x8006, [.x, .y]⟩,
    ⟨"SHR", 0x8006, [.both]⟩,
    ⟨"SUBN", 0x8007, [.x, .y]⟩,
    ⟨"SHL", 0x800E, [.x, .y]⟩,
    ⟨"SHL", 0x800E, [.both]⟩,
    ⟨"RND", 0xC000, [.x, .byte]⟩,
    ⟨"DRW", 0xD000, [.x, .y, .nibble]⟩,
    ⟨"SKP", 0xE09E, [.x]⟩,
    ⟨"SKNP", 0xE0A1, [.x]⟩]

/-- The forms of a mnemonic. -/
def formsNamed (mnemonic : List Char) : List Form := forms.filter (·.isNamed mnemonic)

/-- Whether a word is the mnemonic of some form. -/
def isMnemonic (w : List Char) : Bool := forms.any (·.isNamed w)

/-- The forms of a mnemonic that take the operands. -/
def matching (mnemonic : List Char) (operands : List Node) : List Form :=
  (formsNamed mnemonic).filter (·.accepts operands)

end Chip8.Asm
