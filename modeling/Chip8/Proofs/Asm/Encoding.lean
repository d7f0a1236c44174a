import Chip8.Asm.Form
import Chip8.Machine.Instruction
import Mathlib.Algebra.Group.Nat.Defs
import Mathlib.Data.List.Forall2

/-! # Encoding

The machine reads from an instruction word what the assembler put into it.

* **Views.** `Instruction.mnemonic` and `Instruction.operands` list an instruction the way that the
  forms of the assembler do; `Instruction.text_eq` ties them to its text.
* **Words.** `toNat_or_of_gap`: bits that are put into a gap of a word are added to it.
* **Forms.** `Form.Decodes` says that a form is decoded to an instruction with its mnemonic and
  operands. There is one lemma for each kind of signature, and `decodes_of_mem` goes through the
  table of forms. -/

namespace Chip8

open Asm

/-! ### Views -/

/-- An operand of an instruction: what it is, and the number of the register or the constant. -/
structure Operand where
  shape : Shape
  value : Nat
deriving DecidableEq, Repr

namespace Operand

def register (r : Reg) : Operand := ⟨.register, r.val⟩
def byte (kk : UInt8) : Operand := ⟨.byte, kk.toNat⟩
def address (a : UInt16) : Operand := ⟨.address, a.toNat⟩
def nibble (n : Nat) : Operand := ⟨.nibble, n⟩
def zero : Operand := ⟨.registerZero, 0⟩
def word (k : Keyword) : Operand := ⟨.word k, 0⟩

/-- The operand in the syntax of the assembler. -/
def text (o : Operand) : String :=
  match o.shape with
  | .register => "V" ++ Numeral.hexUpper 1 o.value
  | .registerZero => "V0"
  | .word k => k.text
  | .nibble => "0x" ++ Numeral.hexUpper 1 o.value
  | .byte => "0x" ++ Numeral.hexUpper 2 o.value
  | .address => "0x" ++ Numeral.hexUpper 3 o.value

end Operand

namespace Instruction

def mnemonic : Instruction → String
  | cls => "CLS"
  | ret => "RET"
  | jp _ | jpOffset _ => "JP"
  | call _ => "CALL"
  | seByte .. | seReg .. => "SE"
  | sneByte .. | sneReg .. => "SNE"
  | ldByte .. | ldReg .. | ldIndex _ | ldFromDelay _ | ldKey _ | ldDelay _ | ldSound _ | ldGlyph _
  | ldDecimal _ | save _ | restore _ => "LD"
  | addByte .. | addReg .. | addIndex _ => "ADD"
  | or .. => "OR"
  | and .. => "AND"
  | xor .. => "XOR"
  | sub .. => "SUB"
  | shr .. => "SHR"
  | subn .. => "SUBN"
  | shl .. => "SHL"
  | rnd .. => "RND"
  | drw .. => "DRW"
  | skp _ => "SKP"
  | sknp _ => "SKNP"

/-- The operands in the order in which they are listed. -/
def operands : Instruction → List Operand
  | cls | ret => []
  | jp a | call a => [.address a]
  | jpOffset a => [.zero, .address a]
  | seByte x kk | sneByte x kk | ldByte x kk | addByte x kk | rnd x kk => [.register x, .byte kk]
  | seReg x y | sneReg x y | ldReg x y | or x y | and x y | xor x y | addReg x y | sub x y
  | shr x y | subn x y | shl x y => [.register x, .register y]
  | ldIndex a => [.word .index, .address a]
  | drw x y n => [.register x, .register y, .nibble n]
  | skp x | sknp x => [.register x]
  | ldFromDelay x => [.register x, .word .delay]
  | ldKey x => [.register x, .word .key]
  | ldDelay x => [.word .delay, .register x]
  | ldSound x => [.word .sound, .register x]
  | addIndex x => [.word .index, .register x]
  | ldGlyph x => [.word .glyph, .register x]
  | ldDecimal x => [.word .decimal, .register x]
  | save x => [.word .indexMemory, .register x]
  | restore x => [.register x, .word .indexMemory]

/-- The text of an instruction is its mnemonic and its operands. -/
theorem text_eq (i : Instruction) :
    i.text = match i.operands with
      | [] => i.mnemonic
      | operands => listing i.mnemonic (operands.map Operand.text) := by
  cases i <;> rfl

end Instruction

namespace Asm

/-! ### Words -/

theorem or_eq_add_of_gap {a b i j : Nat} (hji : j ≤ i) (ha : a % 2 ^ i < 2 ^ j)
    (hb : b % 2 ^ j = 0) (hlt : b < 2 ^ i) : a ||| b = a + b := by
  have hdvd : 2 ^ j ∣ 2 ^ i := Nat.pow_dvd_pow 2 hji
  have hpos : 0 < 2 ^ j := Nat.two_pow_pos j
  have hsum : b + a % 2 ^ i < 2 ^ i := by
    obtain ⟨k, hk⟩ := hdvd
    obtain ⟨m, rfl⟩ := Nat.dvd_of_mod_eq_zero hb
    rw [hk] at hlt ⊢
    have hm : m + 1 ≤ k := Nat.lt_of_mul_lt_mul_left hlt
    calc 2 ^ j * m + a % (2 ^ j * k) < 2 ^ j * m + 2 ^ j := by rw [← hk]; omega
      _ = 2 ^ j * (m + 1) := by rw [Nat.mul_add, Nat.mul_one]
      _ ≤ 2 ^ j * k := Nat.mul_le_mul_left _ hm
  have hlow : b + a % 2 ^ i = b ||| a % 2 ^ i := by
    obtain ⟨m, rfl⟩ := Nat.dvd_of_mod_eq_zero hb
    exact Nat.two_pow_add_eq_or_of_lt ha m
  have hlow' : 2 ^ i * (a / 2 ^ i) + a % 2 ^ i = 2 ^ i * (a / 2 ^ i) ||| a % 2 ^ i :=
    Nat.two_pow_add_eq_or_of_lt (Nat.mod_lt _ (Nat.two_pow_pos i)) _
  have hword : 2 ^ i * (a / 2 ^ i) + (b + a % 2 ^ i) = 2 ^ i * (a / 2 ^ i) ||| (b + a % 2 ^ i) :=
    Nat.two_pow_add_eq_or_of_lt hsum _
  calc a ||| b = (2 ^ i * (a / 2 ^ i) + a % 2 ^ i) ||| b := by rw [Nat.div_add_mod]
    _ = 2 ^ i * (a / 2 ^ i) + (b + a % 2 ^ i) := by
        rw [hword, hlow, hlow', Nat.or_assoc, Nat.or_comm (a % 2 ^ i) b]
    _ = a + b := by
        have := Nat.div_add_mod a (2 ^ i)
        omega

/-- Bits that fill a gap of a word are added to it: the bits from `j` up to `i`. -/
theorem toNat_or_of_gap {a b : UInt16} {i j : Nat} (hji : j ≤ i) (ha : a.toNat % 2 ^ i < 2 ^ j)
    (hb : b.toNat % 2 ^ j = 0) (hlt : b.toNat < 2 ^ i) :
    (a ||| b).toNat = a.toNat + b.toNat := by
  rw [UInt16.toNat_or]
  exact or_eq_add_of_gap hji ha hb hlt

theorem toNat_and_nibble {v : UInt16} (h : v.toNat < 16) : (v &&& 0xF).toNat = v.toNat := by
  rw [UInt16.toNat_and]
  show v.toNat &&& (2 ^ 4 - 1) = v.toNat
  rw [Nat.and_two_pow_sub_one_eq_mod]
  exact Nat.mod_eq_of_lt h

theorem toNat_place_x {v : UInt16} (h : v.toNat < 16) :
    (Field.x.place v).toNat = 0x100 * v.toNat := by
  rw [Field.place, UInt16.toNat_shiftLeft, toNat_and_nibble h, Nat.shiftLeft_eq]
  show v.toNat * 0x100 % 0x10000 = 0x100 * v.toNat
  omega

theorem toNat_place_y {v : UInt16} (h : v.toNat < 16) :
    (Field.y.place v).toNat = 0x10 * v.toNat := by
  rw [Field.place, UInt16.toNat_shiftLeft, toNat_and_nibble h, Nat.shiftLeft_eq]
  show v.toNat * 0x10 % 0x10000 = 0x10 * v.toNat
  omega

theorem place_implied (v : UInt16) : Field.implied.place v = 0 := rfl

variable {b r s v : UInt16}

theorem toNat_or_low {k : Nat} (hb : b.toNat % 2 ^ k = 0) (hv : v.toNat < 2 ^ k) :
    (b ||| Field.low.place v).toNat = b.toNat + v.toNat :=
  toNat_or_of_gap (Nat.zero_le k) (by omega) (Nat.mod_one _) hv

theorem toNat_or_x (hb : b.toNat % 0x1000 < 0x100) (hr : r.toNat < 16) :
    (b ||| Field.x.place r).toNat = b.toNat + 0x100 * r.toNat := by
  have hplace := toNat_place_x hr
  rw [toNat_or_of_gap (i := 12) (j := 8) (by decide) hb (by omega) (by omega), hplace]

theorem toNat_or_y (hb : b.toNat % 0x100 < 0x10) (hr : r.toNat < 16) :
    (b ||| Field.y.place r).toNat = b.toNat + 0x10 * r.toNat := by
  have hplace := toNat_place_y hr
  rw [toNat_or_of_gap (i := 8) (j := 4) (by decide) hb (by omega) (by omega), hplace]

theorem toNat_or_xy (hb : b.toNat % 0x1000 < 0x10) (hr : r.toNat < 16)
    (hs : s.toNat < 16) :
    (b ||| Field.x.place r ||| Field.y.place s).toNat =
      b.toNat + 0x100 * r.toNat + 0x10 * s.toNat := by
  have hx := toNat_or_x (b := b) (by omega) hr
  rw [toNat_or_y (by omega) hs, hx]

/-! ### Forms -/

/-- The number of values that an operand of a shape can have. -/
def Shape.limit : Shape → Nat
  | .register | .nibble => 0x10
  | .registerZero | .word _ => 1
  | .byte => 0x100
  | .address => 0x1000

namespace Form

/-- The values are as small as the slots of the form demand. -/
def Fits (form : Form) (values : List UInt16) : Prop :=
  List.Forall₂ (fun slot v => v.toNat < slot.shape.limit) form.slots values

/-- The operands of the instruction for the values in the slots: a register that fills both fields
is listed twice. -/
def contents (form : Form) (values : List Nat) : List Operand :=
  (form.slots.zip values).flatMap fun (slot, v) =>
    if slot.field = .both then [⟨slot.shape, v⟩, ⟨slot.shape, v⟩] else [⟨slot.shape, v⟩]

/-- Whatever fits, the word is an instruction with the mnemonic of the form and its operands. -/
def Decodes (form : Form) : Prop :=
  ∀ values, form.Fits values → ∃ i, Instruction.decode (form.encode values) = some i ∧
    i.mnemonic = form.mnemonic ∧ i.operands = form.contents (values.map UInt16.toNat)

end Form

/-! ### Signatures -/

section Signatures

open Word

variable {m : String} {f k : Nat} {implied : Slot}

theorem operand_x {w : UInt16} {r : Nat} (h : w.toNat / 0x100 % 16 = r) :
    Operand.register (x w) = ⟨.register, r⟩ := by
  rw [← h]
  rfl

theorem operand_y {w : UInt16} {r : Nat} (h : w.toNat / 0x10 % 16 = r) :
    Operand.register (y w) = ⟨.register, r⟩ := by
  rw [← h]
  rfl

theorem operand_kk {w : UInt16} {v : Nat} (h : w.toNat % 0x100 = v) :
    Operand.byte (kk w) = ⟨.byte, v⟩ := by
  rw [Operand.byte, toNat_kk, h]

theorem operand_nnn {w : UInt16} {v : Nat} (h : w.toNat % 0x1000 = v) :
    Operand.address (nnn w) = ⟨.address, v⟩ := by
  rw [Operand.address, toNat_nnn, h]

/-- An instruction without operands. -/
theorem decodes_fixed {i : Instruction} (hdecode : Instruction.decode base = some i)
    (hmnemonic : i.mnemonic = m) (hoperands : i.operands = []) : Form.Decodes ⟨m, base, []⟩ := by
  intro values hfits
  cases hfits
  exact ⟨i, hdecode, hmnemonic, hoperands⟩

/-- An address in the low bits. -/
theorem decodes_address {c : UInt16 → Instruction} (hbase : base.toNat = 0x1000 * f)
    (hdecode : ∀ w, family w = f → Instruction.decode w = some (c (nnn w)))
    (hmnemonic : ∀ a, (c a).mnemonic = m) (hoperands : ∀ a, (c a).operands = [.address a]) :
    Form.Decodes ⟨m, base, [.address]⟩ := by
  intro values hfits
  rcases hfits with _ | @⟨_, v, _, _, hv, _ | _⟩
  replace hv : v.toNat < 0x1000 := hv
  have hencode : Form.encode ⟨m, base, [.address]⟩ [v] = base ||| Field.low.place v := rfl
  have hword := toNat_or_low (b := base) (k := 12) (by omega) hv
  rw [hencode]
  refine ⟨_, hdecode _ (by unfold family; omega), hmnemonic _, ?_⟩
  rw [hoperands, operand_nnn (v := v.toNat) (by omega)]
  rfl

/-- An address in the low bits behind an operand that is part of the form. -/
theorem decodes_implied_address {c : UInt16 → Instruction} (hfield : implied.field = .implied)
    (hlimit : implied.shape.limit = 1) (hbase : base.toNat = 0x1000 * f)
    (hdecode : ∀ w, family w = f → Instruction.decode w = some (c (nnn w)))
    (hmnemonic : ∀ a, (c a).mnemonic = m)
    (hoperands : ∀ a, (c a).operands = [⟨implied.shape, 0⟩, .address a]) :
    Form.Decodes ⟨m, base, [implied, .address]⟩ := by
  intro values hfits
  rcases hfits with _ | @⟨_, u, _, _, hu, _ | @⟨_, v, _, _, hv, _ | _⟩⟩
  replace hv : v.toNat < 0x1000 := hv
  have hu0 : u.toNat = 0 := by omega
  have hencode : Form.encode ⟨m, base, [implied, .address]⟩ [u, v] =
      base ||| implied.field.place u ||| Field.low.place v := rfl
  have hword := toNat_or_low (b := base) (k := 12) (by omega) hv
  rw [hencode, hfield, place_implied, UInt16.or_zero]
  refine ⟨_, hdecode _ (by unfold family; omega), hmnemonic _, ?_⟩
  rw [hoperands, operand_nnn (v := v.toNat) (by omega)]
  simp [Form.contents, hfield, hu0, Slot.address]

/-- A register in the second nibble and a byte in the low ones. -/
theorem decodes_x_byte {c : Reg → UInt8 → Instruction} (hbase : base.toNat = 0x1000 * f)
    (hdecode : ∀ w, family w = f → Instruction.decode w = some (c (x w) (kk w)))
    (hmnemonic : ∀ r b, (c r b).mnemonic = m)
    (hoperands : ∀ r b, (c r b).operands = [.register r, .byte b]) :
    Form.Decodes ⟨m, base, [.x, .byte]⟩ := by
  intro values hfits
  rcases hfits with _ | @⟨_, r, _, _, hr, _ | @⟨_, v, _, _, hv, _ | _⟩⟩
  replace hr : r.toNat < 0x10 := hr
  replace hv : v.toNat < 0x100 := hv
  have hencode : Form.encode ⟨m, base, [.x, .byte]⟩ [r, v] =
      base ||| Field.x.place r ||| Field.low.place v := rfl
  have hx := toNat_or_x (b := base) (by omega) hr
  have hword := toNat_or_low (b := base ||| Field.x.place r) (k := 8) (by omega) hv
  rw [hencode]
  refine ⟨_, hdecode _ (by unfold family; omega), hmnemonic _ _, ?_⟩
  rw [hoperands, operand_x (r := r.toNat) (by omega), operand_kk (v := v.toNat) (by omega)]
  rfl

/-- Registers in the second and third nibble. -/
theorem decodes_x_y {c : Reg → Reg → Instruction} (hbase : base.toNat = 0x1000 * f + k)
    (hk : k < 0x10)
    (hdecode : ∀ w, family w = f → n w = k → Instruction.decode w = some (c (x w) (y w)))
    (hmnemonic : ∀ r s, (c r s).mnemonic = m)
    (hoperands : ∀ r s, (c r s).operands = [.register r, .register s]) :
    Form.Decodes ⟨m, base, [.x, .y]⟩ := by
  intro values hfits
  rcases hfits with _ | @⟨_, r, _, _, hr, _ | @⟨_, s, _, _, hs, _ | _⟩⟩
  replace hr : r.toNat < 0x10 := hr
  replace hs : s.toNat < 0x10 := hs
  have hencode : Form.encode ⟨m, base, [.x, .y]⟩ [r, s] =
      base ||| Field.x.place r ||| Field.y.place s := rfl
  have hword := toNat_or_xy (b := base) (by omega) hr hs
  rw [hencode]
  refine ⟨_, hdecode _ (by unfold family; omega) (by unfold n; omega), hmnemonic _ _, ?_⟩
  rw [hoperands, operand_x (r := r.toNat) (by omega), operand_y (r := s.toNat) (by omega)]
  rfl

/-- One register in the second and third nibble is as good as the same register twice. -/
theorem decodes_both (h : Form.Decodes ⟨m, base, [.x, .y]⟩) : Form.Decodes ⟨m, base, [.both]⟩ := by
  intro values hfits
  rcases hfits with _ | @⟨_, r, _, _, hr, _ | _⟩
  have hencode : Form.encode ⟨m, base, [.both]⟩ [r] = Form.encode ⟨m, base, [.x, .y]⟩ [r, r] :=
    (UInt16.or_assoc base (Field.x.place r) (Field.y.place r)).symm
  rw [hencode]
  exact h [r, r] (.cons hr (.cons hr .nil))

/-- Registers in the second and third nibble, and a constant in the last. -/
theorem decodes_x_y_nibble {c : Reg → Reg → Nat → Instruction} (hbase : base.toNat = 0x1000 * f)
    (hdecode : ∀ w, family w = f → Instruction.decode w = some (c (x w) (y w) (n w)))
    (hmnemonic : ∀ r s k, (c r s k).mnemonic = m)
    (hoperands : ∀ r s k, (c r s k).operands = [.register r, .register s, .nibble k]) :
    Form.Decodes ⟨m, base, [.x, .y, .nibble]⟩ := by
  intro values hfits
  rcases hfits with _ | @⟨_, r, _, _, hr, _ | @⟨_, s, _, _, hs, _ | @⟨_, v, _, _, hv, _ | _⟩⟩⟩
  replace hr : r.toNat < 0x10 := hr
  replace hs : s.toNat < 0x10 := hs
  replace hv : v.toNat < 0x10 := hv
  have hencode : Form.encode ⟨m, base, [.x, .y, .nibble]⟩ [r, s, v] =
      base ||| Field.x.place r ||| Field.y.place s ||| Field.low.place v := rfl
  have hxy := toNat_or_xy (b := base) (by omega) hr hs
  have hword := toNat_or_low (b := base ||| Field.x.place r ||| Field.y.place s) (k := 4)
    (by omega) hv
  have hlast : n (base ||| Field.x.place r ||| Field.y.place s ||| Field.low.place v) = v.toNat := by
    unfold n
    omega
  rw [hencode]
  refine ⟨_, hdecode _ (by unfold family; omega), hmnemonic _ _ _, ?_⟩
  rw [hoperands, operand_x (r := r.toNat) (by omega), operand_y (r := s.toNat) (by omega), hlast]
  rfl

section Devices

variable {c : Reg → Instruction}

/-- The word of a form with one register, in the second nibble. -/
theorem decodes_word_x (hbase : base.toNat = 0x1000 * f + k) (hk : k < 0x100)
    (hdecode : ∀ w, family w = f → (kk w).toNat = k → Instruction.decode w = some (c (x w)))
    (hr : r.toNat < 0x10) :
    Instruction.decode (base ||| Field.x.place r) = some (c (x (base ||| Field.x.place r))) ∧
      Operand.register (x (base ||| Field.x.place r)) = ⟨.register, r.toNat⟩ := by
  have hword := toNat_or_x (b := base) (by omega) hr
  refine ⟨hdecode _ (by unfold family; omega) ?_, operand_x (by omega)⟩
  rw [toNat_kk]
  omega

theorem decodes_x (hbase : base.toNat = 0x1000 * f + k) (hk : k < 0x100)
    (hdecode : ∀ w, family w = f → (kk w).toNat = k → Instruction.decode w = some (c (x w)))
    (hmnemonic : ∀ r, (c r).mnemonic = m) (hoperands : ∀ r, (c r).operands = [.register r]) :
    Form.Decodes ⟨m, base, [.x]⟩ := by
  intro values hfits
  rcases hfits with _ | @⟨_, r, _, _, hr, _ | _⟩
  obtain ⟨hword, hregister⟩ := decodes_word_x hbase hk hdecode hr
  refine ⟨_, hword, hmnemonic _, ?_⟩
  rw [hoperands, hregister]
  rfl

theorem decodes_x_implied (hfield : implied.field = .implied) (hlimit : implied.shape.limit = 1)
    (hbase : base.toNat = 0x1000 * f + k) (hk : k < 0x100)
    (hdecode : ∀ w, family w = f → (kk w).toNat = k → Instruction.decode w = some (c (x w)))
    (hmnemonic : ∀ r, (c r).mnemonic = m)
    (hoperands : ∀ r, (c r).operands = [.register r, ⟨implied.shape, 0⟩]) :
    Form.Decodes ⟨m, base, [.x, implied]⟩ := by
  intro values hfits
  rcases hfits with _ | @⟨_, r, _, _, hr, _ | @⟨_, u, _, _, hu, _ | _⟩⟩
  have hu0 : u.toNat = 0 := by omega
  have hencode : Form.encode ⟨m, base, [.x, implied]⟩ [r, u] =
      base ||| Field.x.place r ||| implied.field.place u := rfl
  obtain ⟨hword, hregister⟩ := decodes_word_x hbase hk hdecode hr
  rw [hencode, hfield, place_implied, UInt16.or_zero]
  refine ⟨_, hword, hmnemonic _, ?_⟩
  rw [hoperands, hregister]
  simp [Form.contents, hfield, hu0, Slot.x]

theorem decodes_implied_x (hfield : implied.field = .implied) (hlimit : implied.shape.limit = 1)
    (hbase : base.toNat = 0x1000 * f + k) (hk : k < 0x100)
    (hdecode : ∀ w, family w = f → (kk w).toNat = k → Instruction.decode w = some (c (x w)))
    (hmnemonic : ∀ r, (c r).mnemonic = m)
    (hoperands : ∀ r, (c r).operands = [⟨implied.shape, 0⟩, .register r]) :
    Form.Decodes ⟨m, base, [implied, .x]⟩ := by
  intro values hfits
  rcases hfits with _ | @⟨_, u, _, _, hu, _ | @⟨_, r, _, _, hr, _ | _⟩⟩
  have hu0 : u.toNat = 0 := by omega
  have hencode : Form.encode ⟨m, base, [implied, .x]⟩ [u, r] =
      base ||| implied.field.place u ||| Field.x.place r := rfl
  obtain ⟨hword, hregister⟩ := decodes_word_x hbase hk hdecode hr
  rw [hencode, hfield, place_implied, UInt16.or_zero]
  refine ⟨_, hword, hmnemonic _, ?_⟩
  rw [hoperands, hregister]
  simp [Form.contents, hfield, hu0, Slot.x]

end Devices

end Signatures

/-! ### The table -/

/-- **No form is rejected**: whatever fits into a form of the table, the machine reads the mnemonic
and the operands of the form from the word. -/
theorem decodes_of_mem {form : Form} (h : form ∈ forms) : form.Decodes := by
  simp only [forms, List.mem_cons, List.not_mem_nil, or_false] at h
  rcases h with rfl | rfl | rfl | rfl | rfl | rfl | rfl | rfl | rfl | rfl | rfl | rfl | rfl | rfl |
    rfl | rfl | rfl | rfl | rfl | rfl | rfl | rfl | rfl | rfl | rfl | rfl | rfl | rfl | rfl | rfl |
    rfl | rfl | rfl | rfl | rfl | rfl
  · exact decodes_fixed (i := .cls) rfl rfl rfl
  · exact decodes_fixed (i := .ret) rfl rfl rfl
  · exact decodes_address (f := 1) (c := .jp) rfl (fun w h => by simp [Instruction.decode, h])
      (fun _ => rfl) fun _ => rfl
  · exact decodes_implied_address (f := 11) (c := .jpOffset) rfl rfl rfl
      (fun w h => by simp [Instruction.decode, h]) (fun _ => rfl) fun _ => rfl
  · exact decodes_address (f := 2) (c := .call) rfl (fun w h => by simp [Instruction.decode, h])
      (fun _ => rfl) fun _ => rfl
  · exact decodes_x_byte (f := 3) (c := .seByte) rfl
      (fun w h => by simp [Instruction.decode, h]) (fun _ _ => rfl) fun _ _ => rfl
  · exact decodes_x_y (f := 5) (k := 0) (c := .seReg) rfl (by decide)
      (fun w h hn => by simp [Instruction.decode, h, hn]) (fun _ _ => rfl) fun _ _ => rfl
  · exact decodes_x_byte (f := 4) (c := .sneByte) rfl
      (fun w h => by simp [Instruction.decode, h]) (fun _ _ => rfl) fun _ _ => rfl
  · exact decodes_x_y (f := 9) (k := 0) (c := .sneReg) rfl (by decide)
      (fun w h hn => by simp [Instruction.decode, h, hn]) (fun _ _ => rfl) fun _ _ => rfl
  · exact decodes_x_byte (f := 6) (c := .ldByte) rfl
      (fun w h => by simp [Instruction.decode, h]) (fun _ _ => rfl) fun _ _ => rfl
  · exact decodes_x_y (f := 8) (k := 0) (c := .ldReg) rfl (by decide)
      (fun w h hn => by simp [Instruction.decode, Instruction.decodeArithmetic, h, hn])
      (fun _ _ => rfl) fun _ _ => rfl
  · exact decodes_implied_address (f := 10) (c := .ldIndex) rfl rfl rfl
      (fun w h => by simp [Instruction.decode, h]) (fun _ => rfl) fun _ => rfl
  · exact decodes_x_implied (f := 15) (k := 0x07) (c := .ldFromDelay) rfl rfl rfl (by decide)
      (fun w h hk => by simp [Instruction.decode, Instruction.decodeDevice, h, hk]) (fun _ => rfl)
      fun _ => rfl
  · exact decodes_x_implied (f := 15) (k := 0x0A) (c := .ldKey) rfl rfl rfl (by decide)
      (fun w h hk => by simp [Instruction.decode, Instruction.decodeDevice, h, hk]) (fun _ => rfl)
      fun _ => rfl
  · exact decodes_implied_x (f := 15) (k := 0x15) (c := .ldDelay) rfl rfl rfl (by decide)
      (fun w h hk => by simp [Instruction.decode, Instruction.decodeDevice, h, hk]) (fun _ => rfl)
      fun _ => rfl
  · exact decodes_implied_x (f := 15) (k := 0x18) (c := .ldSound) rfl rfl rfl (by decide)
      (fun w h hk => by simp [Instruction.decode, Instruction.decodeDevice, h, hk]) (fun _ => rfl)
      fun _ => rfl
  · exact decodes_implied_x (f := 15) (k := 0x29) (c := .ldGlyph) rfl rfl rfl (by decide)
      (fun w h hk => by simp [Instruction.decode, Instruction.decodeDevice, h, hk]) (fun _ => rfl)
      fun _ => rfl
  · exact decodes_implied_x (f := 15) (k := 0x33) (c := .ldDecimal) rfl rfl rfl (by decide)
      (fun w h hk => by simp [Instruction.decode, Instruction.decodeDevice, h, hk]) (fun _ => rfl)
      fun _ => rfl
  · exact decodes_implied_x (f := 15) (k := 0x55) (c := .save) rfl rfl rfl (by decide)
      (fun w h hk => by simp [Instruction.decode, Instruction.decodeDevice, h, hk]) (fun _ => rfl)
      fun _ => rfl
  · exact decodes_x_implied (f := 15) (k := 0x65) (c := .restore) rfl rfl rfl (by decide)
      (fun w h hk => by simp [Instruction.decode, Instruction.decodeDevice, h, hk]) (fun _ => rfl)
      fun _ => rfl
  · exact decodes_x_byte (f := 7) (c := .addByte) rfl
      (fun w h => by simp [Instruction.decode, h]) (fun _ _ => rfl) fun _ _ => rfl
  · exact decodes_x_y (f := 8) (k := 4) (c := .addReg) rfl (by decide)
      (fun w h hn => by simp [Instruction.decode, Instruction.decodeArithmetic, h, hn])
      (fun _ _ => rfl) fun _ _ => rfl
  · exact decodes_implied_x (f := 15) (k := 0x1E) (c := .addIndex) rfl rfl rfl (by decide)
      (fun w h hk => by simp [Instruction.decode, Instruction.decodeDevice, h, hk]) (fun _ => rfl)
      fun _ => rfl
  · exact decodes_x_y (f := 8) (k := 1) (c := .or) rfl (by decide)
      (fun w h hn => by simp [Instruction.decode, Instruction.decodeArithmetic, h, hn])
      (fun _ _ => rfl) fun _ _ => rfl
  · exact decodes_x_y (f := 8) (k := 2) (c := .and) rfl (by decide)
      (fun w h hn => by simp [Instruction.decode, Instruction.decodeArithmetic, h, hn])
      (fun _ _ => rfl) fun _ _ => rfl
  · exact decodes_x_y (f := 8) (k := 3) (c := .xor) rfl (by decide)
      (fun w h hn => by simp [Instruction.decode, Instruction.decodeArithmetic, h, hn])
      (fun _ _ => rfl) fun _ _ => rfl
  · exact decodes_x_y (f := 8) (k := 5) (c := .sub) rfl (by decide)
      (fun w h hn => by simp [Instruction.decode, Instruction.decodeArithmetic, h, hn])
      (fun _ _ => rfl) fun _ _ => rfl
  · exact decodes_x_y (f := 8) (k := 6) (c := .shr) rfl (by decide)
      (fun w h hn => by simp [Instruction.decode, Instruction.decodeArithmetic, h, hn])
      (fun _ _ => rfl) fun _ _ => rfl
  · exact decodes_both (decodes_x_y (f := 8) (k := 6) (c := .shr) rfl (by decide)
      (fun w h hn => by simp [Instruction.decode, Instruction.decodeArithmetic, h, hn])
      (fun _ _ => rfl) fun _ _ => rfl)
  · exact decodes_x_y (f := 8) (k := 7) (c := .subn) rfl (by decide)
      (fun w h hn => by simp [Instruction.decode, Instruction.decodeArithmetic, h, hn])
      (fun _ _ => rfl) fun _ _ => rfl
  · exact decodes_x_y (f := 8) (k := 14) (c := .shl) rfl (by decide)
      (fun w h hn => by simp [Instruction.decode, Instruction.decodeArithmetic, h, hn])
      (fun _ _ => rfl) fun _ _ => rfl
  · exact decodes_both (decodes_x_y (f := 8) (k := 14) (c := .shl) rfl (by decide)
      (fun w h hn => by simp [Instruction.decode, Instruction.decodeArithmetic, h, hn])
      (fun _ _ => rfl) fun _ _ => rfl)
  · exact decodes_x_byte (f := 12) (c := .rnd) rfl
      (fun w h => by simp [Instruction.decode, h]) (fun _ _ => rfl) fun _ _ => rfl
  · exact decodes_x_y_nibble (f := 13) (c := .drw) rfl
      (fun w h => by simp [Instruction.decode, h]) (fun _ _ _ => rfl) fun _ _ _ => rfl
  · refine decodes_x (f := 14) (k := 0x9E) (c := .skp) rfl (by decide) (fun w h hk => ?_)
      (fun _ => rfl) fun _ => rfl
    have hkk : Word.kk w = 0x9E := UInt8.toNat_inj.mp hk
    simp [Instruction.decode, h, hkk]
  · refine decodes_x (f := 14) (k := 0xA1) (c := .sknp) rfl (by decide) (fun w h hk => ?_)
      (fun _ => rfl) fun _ => rfl
    have hkk : Word.kk w = 0xA1 := UInt8.toNat_inj.mp hk
    simp [Instruction.decode, h, hkk]

end Asm

end Chip8
