import Chip8.Text.Numeral

/-! # Instruction words

The fields of a 16-bit instruction word: the leading nibble names the family, the next two nibbles
are register numbers, and the low nibble, the low byte and the low twelve bits are constants. -/

namespace Chip8

/-- One of the sixteen general registers. -/
abbrev Reg := Fin 16

/-- The low four bits of a byte. -/
def lowNibble (b : UInt8) : Fin 16 := ⟨b.toNat % 16, Nat.mod_lt _ (by decide)⟩

/-- The register whose number is in the low four bits of a byte. -/
def Reg.ofCode (code : UInt8) : Reg := lowNibble code

/-- The first register. -/
def Reg.first : Reg := Reg.ofCode 0

/-- The register that flags are written to. -/
def Reg.flag : Reg := Reg.ofCode 0xF

/-- The register called `V` and its hexadecimal digit. -/
def Reg.text (r : Reg) : String := "V" ++ Numeral.hexUpper 1 r.val

namespace Word

/-- The leading nibble. -/
def family (w : UInt16) : Nat := w.toNat / 0x1000

/-- The second nibble, as a register. -/
def x (w : UInt16) : Reg := ⟨w.toNat / 0x100 % 16, Nat.mod_lt _ (by decide)⟩

/-- The third nibble, as a register. -/
def y (w : UInt16) : Reg := ⟨w.toNat / 0x10 % 16, Nat.mod_lt _ (by decide)⟩

/-- The low nibble. -/
def n (w : UInt16) : Nat := w.toNat % 0x10

/-- The low byte. -/
def kk (w : UInt16) : UInt8 := w.toUInt8

/-- The low twelve bits, an address. -/
def nnn (w : UInt16) : UInt16 := w % 0x1000

theorem toNat_kk (w : UInt16) : (kk w).toNat = w.toNat % 0x100 := by
  simp [kk]

theorem toNat_nnn (w : UInt16) : (nnn w).toNat = w.toNat % 0x1000 := by
  simp [nnn]

theorem family_lt (w : UInt16) : family w < 16 := by
  have := w.toNat_lt
  unfold family
  omega

end Word

end Chip8
