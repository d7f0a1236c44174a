import Chip8.Machine.State

/-! # Reports

The texts that show a machine to a user: its registers, and its picture.

* In the **minimal** style every register has a line of its own in decimal, and every row of the
  picture is a line of `#` and `.`.
* In the **full** style the registers stand in a framed table in hexadecimal with terminal styles,
  and a line of the picture shows two rows by half blocks. -/

namespace Chip8

/-- A text in a terminal style, the style off behind it. -/
def styled (code text : String) : String := "\x1b[" ++ code ++ "m" ++ text ++ "\x1b[0m"

/-- A text in faint letters. -/
def faint (text : String) : String := styled "2" text

/-- A text in bold letters. -/
def bold (text : String) : String := styled "1" text

namespace Machine

/-- The horizontal edge of the register table. -/
def edge (left right : String) : String :=
  faint (left ++ String.ofList (List.replicate 38 '─') ++ right) ++ "\n"

/-- One register in the table. -/
def registerCell (m : Machine) (r : Reg) : String :=
  " " ++ bold r.text ++ " 0x" ++ Numeral.hex 2 (m.reg r).toNat ++ " "

/-- One row of four registers in the table, from the register with the number `first` on. -/
def registerRow (m : Machine) (first : Nat) : String :=
  faint "│" ++ String.join ((((List.finRange 16).drop first).take 4).map m.registerCell) ++ "  " ++
    faint "│" ++ "\n"

/-- The row of program counter, index, stack depth and delay timer. -/
def pointerRow (m : Machine) : String :=
  faint "│" ++ " " ++ bold "PC" ++ " 0x" ++ Numeral.hex 3 m.pc.toNat ++ "  " ++ bold "I" ++ " 0x" ++
    Numeral.hex 3 m.index.toNat ++ "  " ++ bold "SP" ++ " " ++
    Numeral.field 2 (Numeral.decimal m.sp) ++ "  " ++ bold "DT" ++ " " ++
    Numeral.field 3 (Numeral.decimal m.delay.value.toNat) ++ " " ++ faint "│" ++ "\n"

/-- The registers in the full style. -/
def fullRegisters (m : Machine) : String :=
  edge "┌" "┐" ++ m.registerRow 0 ++ m.registerRow 4 ++ m.registerRow 8 ++ m.registerRow 12 ++
    m.pointerRow ++ edge "└" "┘"

/-- The registers in the minimal style. -/
def minimalRegisters (m : Machine) : String :=
  String.join ((List.finRange 16).map fun r =>
      Reg.text r ++ " " ++ Numeral.decimal (m.reg r).toNat ++ "\n") ++
    "PC " ++ Numeral.decimal m.pc.toNat ++ "\nI " ++ Numeral.decimal m.index.toNat ++ "\nSP " ++
    Numeral.decimal m.sp ++ "\n"

/-- The registers as a text. -/
def registersText (m : Machine) (minimal : Bool) : String :=
  if minimal then m.minimalRegisters else m.fullRegisters

end Machine

namespace Frame

/-- The half block that shows a pixel and the one below it. -/
def halfBlock (top bottom : Bool) : Char :=
  match top, bottom with
  | true, true => '█'
  | true, false => '▀'
  | false, true => '▄'
  | false, false => ' '

/-- A line of output, one character for each column. -/
def line (f : Frame) (column : Nat → Char) : String :=
  String.ofList ((List.range f.width).map column ++ ['\n'])

/-- The picture in the minimal style. -/
def minimalText (f : Frame) : String :=
  String.join ((List.range f.height).map fun y =>
    f.line fun x => if f.pixel x y then '#' else '.')

/-- The picture in the full style. -/
def fullText (f : Frame) : String :=
  String.join ((List.range ((f.height + 1) / 2)).map fun y =>
    f.line fun x => halfBlock (f.pixel x (2 * y)) (f.pixel x (2 * y + 1)))

/-- The picture as a text. -/
def text (f : Frame) (minimal : Bool) : String :=
  if minimal then f.minimalText else f.fullText

end Frame

end Chip8
