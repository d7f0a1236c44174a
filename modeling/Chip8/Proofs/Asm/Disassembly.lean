import Chip8.Proofs.Asm.Encoding

/-! # From words back to forms

Every word that the machine decodes can be written with a form of the assembler.

* There is one lemma for each kind of signature: the fields of a word, put together again, are the
  word.
* `formOf_decode` and `valid_of_decode` go through the decoder: the word has a form, and the operands
  of the instruction fit into it. -/

namespace Chip8

/-! ### Operands -/

/-- The value of an operand fits into its field. -/
def Operand.Valid (o : Operand) : Prop := o.value < o.shape.limit

namespace Operand

@[simp] theorem valid_register (r : Reg) : (register r).Valid := r.isLt

@[simp] theorem valid_byte (kk : UInt8) : (byte kk).Valid := kk.toNat_lt

@[simp] theorem valid_address (w : UInt16) : (address (Word.nnn w)).Valid := by
  show (Word.nnn w).toNat < 0x1000
  rw [Word.toNat_nnn]
  exact Nat.mod_lt _ (by decide)

@[simp] theorem valid_nibble (w : UInt16) : (nibble (Word.n w)).Valid := Nat.mod_lt _ (by decide)

@[simp] theorem valid_zero : zero.Valid := Nat.one_pos

@[simp] theorem valid_word (k : Asm.Keyword) : (word k).Valid := Nat.one_pos

end Operand

theorem valid_of_decode {w : UInt16} {i : Instruction} (h : Instruction.decode w = some i) :
    ∀ o ∈ i.operands, o.Valid := by
  unfold Instruction.decode Instruction.decodeArithmetic Instruction.decodeDevice at h
  repeat' split at h
  all_goals cases h
  all_goals simp [Instruction.operands]

namespace Asm

/-! ### Words -/

section Words

open Word

variable {m : String} {base w : UInt16} {f k : Nat}

theorem toNat_x (w : UInt16) : (x w).val.toUInt16.toNat = w.toNat / 0x100 % 0x10 := by
  rw [Nat.toUInt16_eq, UInt16.toNat_ofNat']
  show w.toNat / 0x100 % 0x10 % 0x10000 = _
  omega

theorem toNat_y (w : UInt16) : (y w).val.toUInt16.toNat = w.toNat / 0x10 % 0x10 := by
  rw [Nat.toUInt16_eq, UInt16.toNat_ofNat']
  show w.toNat / 0x10 % 0x10 % 0x10000 = _
  omega

theorem toNat_n (w : UInt16) : (n w).toUInt16.toNat = w.toNat % 0x10 := by
  rw [Nat.toUInt16_eq, UInt16.toNat_ofNat', n]
  omega

theorem toNat_toUInt16_kk (w : UInt16) : (kk w).toNat.toUInt16.toNat = w.toNat % 0x100 := by
  rw [Nat.toUInt16_eq, UInt16.toNat_ofNat', toNat_kk]
  omega

theorem toNat_toUInt16_nnn (w : UInt16) : (nnn w).toNat.toUInt16.toNat = w.toNat % 0x1000 := by
  rw [Nat.toUInt16_eq, UInt16.toNat_ofNat', toNat_nnn]
  omega

theorem encode_address (hbase : base.toNat = 0x1000 * f) (hf : family w = f) :
    base ||| Field.low.place (nnn w).toNat.toUInt16 = w := by
  have hv := toNat_toUInt16_nnn w
  have hword := toNat_or_low (b := base) (v := (nnn w).toNat.toUInt16) (k := 12) (by omega)
    (by omega)
  unfold family at hf
  apply UInt16.toNat_inj.mp
  omega

theorem encode_x_byte (hbase : base.toNat = 0x1000 * f) (hf : family w = f) :
    base ||| Field.x.place (x w).val.toUInt16 ||| Field.low.place (kk w).toNat.toUInt16 = w := by
  have hr := toNat_x w
  have hv := toNat_toUInt16_kk w
  have hx := toNat_or_x (b := base) (r := (x w).val.toUInt16) (by omega) (by omega)
  have hword := toNat_or_low (b := base ||| Field.x.place (x w).val.toUInt16)
    (v := (kk w).toNat.toUInt16) (k := 8) (by omega) (by omega)
  unfold family at hf
  apply UInt16.toNat_inj.mp
  omega

theorem encode_x_y (hbase : base.toNat = 0x1000 * f + k) (hf : family w = f) (hk : n w = k) :
    base ||| Field.x.place (x w).val.toUInt16 ||| Field.y.place (y w).val.toUInt16 = w := by
  have hr := toNat_x w
  have hs := toNat_y w
  unfold family at hf
  unfold n at hk
  have hword := toNat_or_xy (b := base) (r := (x w).val.toUInt16) (s := (y w).val.toUInt16)
    (by omega) (by omega) (by omega)
  apply UInt16.toNat_inj.mp
  omega

theorem encode_x_y_nibble (hbase : base.toNat = 0x1000 * f) (hf : family w = f) :
    base ||| Field.x.place (x w).val.toUInt16 ||| Field.y.place (y w).val.toUInt16 |||
      Field.low.place (n w).toUInt16 = w := by
  have hr := toNat_x w
  have hs := toNat_y w
  have hv := toNat_n w
  have hxy := toNat_or_xy (b := base) (r := (x w).val.toUInt16) (s := (y w).val.toUInt16)
    (by omega) (by omega) (by omega)
  have hword := toNat_or_low
    (b := base ||| Field.x.place (x w).val.toUInt16 ||| Field.y.place (y w).val.toUInt16)
    (v := (n w).toUInt16) (k := 4) (by omega) (by omega)
  unfold family at hf
  apply UInt16.toNat_inj.mp
  omega

theorem encode_x (hbase : base.toNat = 0x1000 * f + k) (hf : family w = f)
    (hk : (kk w).toNat = k) : base ||| Field.x.place (x w).val.toUInt16 = w := by
  have hr := toNat_x w
  rw [toNat_kk] at hk
  have hword := toNat_or_x (b := base) (r := (x w).val.toUInt16) (by omega) (by omega)
  unfold family at hf
  apply UInt16.toNat_inj.mp
  omega

/-! ### Forms -/

/-- The form of the table that lists like an instruction, and encodes its operands as the word. -/
structure FormOf (w : UInt16) (i : Instruction) (form : Form) : Prop where
  form_mem : form ∈ forms
  mnemonic : form.mnemonic = i.mnemonic
  signature : form.signature = i.operands.map Operand.shape
  encode : form.encode (i.operands.map fun o => o.value.toUInt16) = w

theorem formOf_arithmetic {i : Instruction} (hf : family w = 8)
    (h : Instruction.decodeArithmetic w = some i) : ∃ form, FormOf w i form := by
  unfold Instruction.decodeArithmetic at h
  split at h <;> rename_i hk <;> cases h
  · exact ⟨⟨"LD", 0x8000, [.x, .y]⟩, by decide, rfl, rfl, encode_x_y rfl hf hk⟩
  · exact ⟨⟨"OR", 0x8001, [.x, .y]⟩, by decide, rfl, rfl, encode_x_y rfl hf hk⟩
  · exact ⟨⟨"AND", 0x8002, [.x, .y]⟩, by decide, rfl, rfl, encode_x_y rfl hf hk⟩
  · exact ⟨⟨"XOR", 0x8003, [.x, .y]⟩, by decide, rfl, rfl, encode_x_y rfl hf hk⟩
  · exact ⟨⟨"ADD", 0x8004, [.x, .y]⟩, by decide, rfl, rfl, encode_x_y rfl hf hk⟩
  · exact ⟨⟨"SUB", 0x8005, [.x, .y]⟩, by decide, rfl, rfl, encode_x_y rfl hf hk⟩
  · exact ⟨⟨"SHR", 0x8006, [.x, .y]⟩, by decide, rfl, rfl, encode_x_y rfl hf hk⟩
  · exact ⟨⟨"SUBN", 0x8007, [.x, .y]⟩, by decide, rfl, rfl, encode_x_y rfl hf hk⟩
  · exact ⟨⟨"SHL", 0x800E, [.x, .y]⟩, by decide, rfl, rfl, encode_x_y rfl hf hk⟩

theorem formOf_device {i : Instruction} (hf : family w = 15)
    (h : Instruction.decodeDevice w = some i) : ∃ form, FormOf w i form := by
  unfold Instruction.decodeDevice at h
  split at h <;> rename_i hk <;> cases h
  · exact ⟨⟨"LD", 0xF007, [.x, .word .delay]⟩, by decide, rfl, rfl,
      (UInt16.or_zero).trans (encode_x rfl hf hk)⟩
  · exact ⟨⟨"LD", 0xF00A, [.x, .word .key]⟩, by decide, rfl, rfl,
      (UInt16.or_zero).trans (encode_x rfl hf hk)⟩
  · exact ⟨⟨"LD", 0xF015, [.word .delay, .x]⟩, by decide, rfl, rfl, encode_x rfl hf hk⟩
  · exact ⟨⟨"LD", 0xF018, [.word .sound, .x]⟩, by decide, rfl, rfl, encode_x rfl hf hk⟩
  · exact ⟨⟨"ADD", 0xF01E, [.word .index, .x]⟩, by decide, rfl, rfl, encode_x rfl hf hk⟩
  · exact ⟨⟨"LD", 0xF029, [.word .glyph, .x]⟩, by decide, rfl, rfl, encode_x rfl hf hk⟩
  · exact ⟨⟨"LD", 0xF033, [.word .decimal, .x]⟩, by decide, rfl, rfl, encode_x rfl hf hk⟩
  · exact ⟨⟨"LD", 0xF055, [.word .indexMemory, .x]⟩, by decide, rfl, rfl, encode_x rfl hf hk⟩
  · exact ⟨⟨"LD", 0xF065, [.x, .word .indexMemory]⟩, by decide, rfl, rfl,
      (UInt16.or_zero).trans (encode_x rfl hf hk)⟩

/-- **Every instruction can be written**: some form of the table gives back the word. -/
theorem formOf_decode {i : Instruction} (h : Instruction.decode w = some i) :
    ∃ form, FormOf w i form := by
  unfold Instruction.decode at h
  split at h <;> rename_i hf
  · split at h
    · rename_i hw
      cases h
      exact ⟨⟨"CLS", 0x00E0, []⟩, by decide, rfl, rfl, hw.symm⟩
    · split at h
      · rename_i hw
        cases h
        exact ⟨⟨"RET", 0x00EE, []⟩, by decide, rfl, rfl, hw.symm⟩
      · cases h
  · cases h
    exact ⟨⟨"JP", 0x1000, [.address]⟩, by decide, rfl, rfl, encode_address rfl hf⟩
  · cases h
    exact ⟨⟨"CALL", 0x2000, [.address]⟩, by decide, rfl, rfl, encode_address rfl hf⟩
  · cases h
    exact ⟨⟨"SE", 0x3000, [.x, .byte]⟩, by decide, rfl, rfl, encode_x_byte rfl hf⟩
  · cases h
    exact ⟨⟨"SNE", 0x4000, [.x, .byte]⟩, by decide, rfl, rfl, encode_x_byte rfl hf⟩
  · split at h
    · rename_i hk
      cases h
      exact ⟨⟨"SE", 0x5000, [.x, .y]⟩, by decide, rfl, rfl, encode_x_y rfl hf hk⟩
    · cases h
  · cases h
    exact ⟨⟨"LD", 0x6000, [.x, .byte]⟩, by decide, rfl, rfl, encode_x_byte rfl hf⟩
  · cases h
    exact ⟨⟨"ADD", 0x7000, [.x, .byte]⟩, by decide, rfl, rfl, encode_x_byte rfl hf⟩
  · exact formOf_arithmetic hf h
  · split at h
    · rename_i hk
      cases h
      exact ⟨⟨"SNE", 0x9000, [.x, .y]⟩, by decide, rfl, rfl, encode_x_y rfl hf hk⟩
    · cases h
  · cases h
    exact ⟨⟨"LD", 0xA000, [.word .index, .address]⟩, by decide, rfl, rfl, encode_address rfl hf⟩
  · cases h
    exact ⟨⟨"JP", 0xB000, [.zero, .address]⟩, by decide, rfl, rfl, encode_address rfl hf⟩
  · cases h
    exact ⟨⟨"RND", 0xC000, [.x, .byte]⟩, by decide, rfl, rfl, encode_x_byte rfl hf⟩
  · cases h
    exact ⟨⟨"DRW", 0xD000, [.x, .y, .nibble]⟩, by decide, rfl, rfl, encode_x_y_nibble rfl hf⟩
  · split at h
    · rename_i hk
      cases h
      exact ⟨⟨"SKP", 0xE09E, [.x]⟩, by decide, rfl, rfl, encode_x rfl hf (congrArg UInt8.toNat hk)⟩
    · split at h
      · rename_i hk
        cases h
        exact ⟨⟨"SKNP", 0xE0A1, [.x]⟩, by decide, rfl, rfl,
          encode_x rfl hf (congrArg UInt8.toNat hk)⟩
      · cases h
  · exact formOf_device hf h
  · cases h

end Words

end Asm

end Chip8
