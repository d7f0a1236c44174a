import Chip8.Machine.Word

/-! # Instructions

The instruction set, the decoding of words and the listing syntax.

* `Instruction` has one constructor for each instruction of the machine, with its operands.
* `Instruction.decode` reads a word; words without a meaning give `none`.
* `Instruction.text` is the listing of an instruction in the syntax of the assembler. -/

namespace Chip8

/-- A decoded instruction. -/
inductive Instruction where
  | cls
  | ret
  | jp (target : UInt16)
  | call (target : UInt16)
  | seByte (x : Reg) (kk : UInt8)
  | sneByte (x : Reg) (kk : UInt8)
  | seReg (x y : Reg)
  | ldByte (x : Reg) (kk : UInt8)
  | addByte (x : Reg) (kk : UInt8)
  | ldReg (x y : Reg)
  | or (x y : Reg)
  | and (x y : Reg)
  | xor (x y : Reg)
  | addReg (x y : Reg)
  | sub (x y : Reg)
  | shr (x y : Reg)
  | subn (x y : Reg)
  | shl (x y : Reg)
  | sneReg (x y : Reg)
  | ldIndex (address : UInt16)
  | jpOffset (target : UInt16)
  | rnd (x : Reg) (kk : UInt8)
  | drw (x y : Reg) (n : Nat)
  | skp (x : Reg)
  | sknp (x : Reg)
  | ldFromDelay (x : Reg)
  | ldKey (x : Reg)
  | ldDelay (x : Reg)
  | ldSound (x : Reg)
  | addIndex (x : Reg)
  | ldGlyph (x : Reg)
  | ldDecimal (x : Reg)
  | save (x : Reg)
  | restore (x : Reg)
deriving DecidableEq, Repr

namespace Instruction

open Word

/-- The instruction of a register-register word, by its low nibble. -/
def decodeArithmetic (w : UInt16) : Option Instruction :=
  match n w with
  | 0x0 => some (.ldReg (x w) (y w))
  | 0x1 => some (.or (x w) (y w))
  | 0x2 => some (.and (x w) (y w))
  | 0x3 => some (.xor (x w) (y w))
  | 0x4 => some (.addReg (x w) (y w))
  | 0x5 => some (.sub (x w) (y w))
  | 0x6 => some (.shr (x w) (y w))
  | 0x7 => some (.subn (x w) (y w))
  | 0xE => some (.shl (x w) (y w))
  | _ => none

/-- The instruction of a word of the last family, by its low byte. -/
def decodeDevice (w : UInt16) : Option Instruction :=
  match (kk w).toNat with
  | 0x07 => some (.ldFromDelay (x w))
  | 0x0A => some (.ldKey (x w))
  | 0x15 => some (.ldDelay (x w))
  | 0x18 => some (.ldSound (x w))
  | 0x1E => some (.addIndex (x w))
  | 0x29 => some (.ldGlyph (x w))
  | 0x33 => some (.ldDecimal (x w))
  | 0x55 => some (.save (x w))
  | 0x65 => some (.restore (x w))
  | _ => none

/-- The instruction that a word stands for. -/
def decode (w : UInt16) : Option Instruction :=
  match family w with
  | 0x0 => if w = 0x00E0 then some .cls else if w = 0x00EE then some .ret else none
  | 0x1 => some (.jp (nnn w))
  | 0x2 => some (.call (nnn w))
  | 0x3 => some (.seByte (x w) (kk w))
  | 0x4 => some (.sneByte (x w) (kk w))
  | 0x5 => if n w = 0 then some (.seReg (x w) (y w)) else none
  | 0x6 => some (.ldByte (x w) (kk w))
  | 0x7 => some (.addByte (x w) (kk w))
  | 0x8 => decodeArithmetic w
  | 0x9 => if n w = 0 then some (.sneReg (x w) (y w)) else none
  | 0xA => some (.ldIndex (nnn w))
  | 0xB => some (.jpOffset (nnn w))
  | 0xC => some (.rnd (x w) (kk w))
  | 0xD => some (.drw (x w) (y w) (n w))
  | 0xE =>
      if kk w = 0x9E then some (.skp (x w)) else if kk w = 0xA1 then some (.sknp (x w)) else none
  | 0xF => decodeDevice w
  | _ => none

/-- A mnemonic and its operands. -/
def listing (mnemonic : String) (operands : List String) : String :=
  mnemonic ++ " " ++ ", ".intercalate operands

/-- A byte constant in a listing. -/
def byteText (kk : UInt8) : String := "0x" ++ Numeral.hexUpper 2 kk.toNat

/-- An address in a listing. -/
def addressText (a : UInt16) : String := "0x" ++ Numeral.hexUpper 3 a.toNat

/-- The listing of an instruction. -/
def text : Instruction → String
  | cls => "CLS"
  | ret => "RET"
  | jp a => listing "JP" [addressText a]
  | call a => listing "CALL" [addressText a]
  | seByte x kk => listing "SE" [x.text, byteText kk]
  | sneByte x kk => listing "SNE" [x.text, byteText kk]
  | seReg x y => listing "SE" [x.text, y.text]
  | ldByte x kk => listing "LD" [x.text, byteText kk]
  | addByte x kk => listing "ADD" [x.text, byteText kk]
  | ldReg x y => listing "LD" [x.text, y.text]
  | or x y => listing "OR" [x.text, y.text]
  | and x y => listing "AND" [x.text, y.text]
  | xor x y => listing "XOR" [x.text, y.text]
  | addReg x y => listing "ADD" [x.text, y.text]
  | sub x y => listing "SUB" [x.text, y.text]
  | shr x y => listing "SHR" [x.text, y.text]
  | subn x y => listing "SUBN" [x.text, y.text]
  | shl x y => listing "SHL" [x.text, y.text]
  | sneReg x y => listing "SNE" [x.text, y.text]
  | ldIndex a => listing "LD" ["I", addressText a]
  | jpOffset a => listing "JP" ["V0", addressText a]
  | rnd x kk => listing "RND" [x.text, byteText kk]
  | drw x y n => listing "DRW" [x.text, y.text, "0x" ++ Numeral.hexUpper 1 n]
  | skp x => listing "SKP" [x.text]
  | sknp x => listing "SKNP" [x.text]
  | ldFromDelay x => listing "LD" [x.text, "DT"]
  | ldKey x => listing "LD" [x.text, "K"]
  | ldDelay x => listing "LD" ["DT", x.text]
  | ldSound x => listing "LD" ["ST", x.text]
  | addIndex x => listing "ADD" ["I", x.text]
  | ldGlyph x => listing "LD" ["F", x.text]
  | ldDecimal x => listing "LD" ["B", x.text]
  | save x => listing "LD" ["[I]", x.text]
  | restore x => listing "LD" [x.text, "[I]"]

/-- One line of an execution trace: address, word and listing. -/
def trace (address word : UInt16) : String :=
  "0x" ++ Numeral.hex 3 address.toNat ++ "  " ++ Numeral.hex 4 word.toNat ++ "  " ++
    match decode word with
    | some i => i.text
    | none => "???"

end Instruction

end Chip8
