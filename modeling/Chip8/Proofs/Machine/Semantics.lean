import Chip8.Machine.Execute
import Chip8.Proofs.Machine.Memory

/-! # Meaning of instructions

What a decoded instruction does to a machine, said in natural numbers.

* **Numbers.** Registers, addresses and words are read as numbers. `jumpTo` reduces a number modulo
  the size of the memory, `put` modulo 256, and `pointTo` modulo the size of the memory and twelve
  bits.
* **Flags.** `putFlagged` gives register `VF` the flag, also if it is the destination.
* `Machine.perform` has one case for each instruction, and says all that the instruction changes.
* `Machine.stepDecoded` decodes the word at the program counter and performs it. -/

namespace Chip8.Machine

/-! ### Reading -/

/-- The number in a register. -/
def value (m : Machine) (x : Reg) : Nat := (m.reg x).toNat

/-- The word at an address, the high byte first. -/
def wordAt (m : Machine) (a : Nat) : UInt16 :=
  (0x100 * (m.memory.byte a).toNat + (m.memory.byte (a + 1)).toNat).toUInt16

/-- Whether the two instructions behind the current one skip on a zero in the register and else jump
back to the current one. -/
def loopsOn (m : Machine) (x : Reg) : Prop :=
  Instruction.decode (m.wordAt (m.pc.toNat + 2)) = some (.seByte x 0) ∧
    Instruction.decode (m.wordAt (m.pc.toNat + 4)) = some (.jp (m.pc.toNat % 0x1000).toUInt16)

instance (m : Machine) (x : Reg) : Decidable (m.loopsOn x) :=
  inferInstanceAs (Decidable (_ ∧ _))

/-- The bytes at the index and behind it. -/
def indexed (m : Machine) (count : Nat) : List UInt8 :=
  (List.range count).map fun i => m.memory.byte (m.index.toNat + i)

/-! ### Writing -/

/-- Continue at an address. -/
def jumpTo (m : Machine) (a : Nat) : Machine := { m with pc := (a % m.memory.size).toUInt16 }

/-- Continue behind the current word. -/
def next (m : Machine) : Machine := m.jumpTo (m.pc.toNat + 2)

/-- Continue behind the current word, or one word later if the condition holds. -/
def nextOrSkip (m : Machine) (condition : Prop) [Decidable condition] : Machine :=
  m.jumpTo (m.pc.toNat + if condition then 4 else 2)

/-- Write a number to a register. -/
def put (m : Machine) (x : Reg) (number : Nat) : Machine :=
  { m with registers := Vector.ofFn fun i => if i = x then number.toUInt8 else m.reg i }

/-- Write a number to a register and a flag to `VF`, which holds the flag if it is that register. -/
def putFlagged (m : Machine) (x : Reg) (number flag : Nat) : Machine :=
  { m with
    registers := Vector.ofFn fun i =>
      if i = Reg.flag then flag.toUInt8 else if i = x then number.toUInt8 else m.reg i }

/-- Let the index stand at an address. -/
def pointTo (m : Machine) (a : Nat) : Machine :=
  { m with index := (a % m.memory.size % 0x1000).toUInt16 }

/-- Write bytes to the index and behind it. -/
def putIndexed (m : Machine) (bytes : List UInt8) : Machine :=
  { m with memory := m.memory.overlay m.index.toNat bytes }

/-! ### Instructions -/

/-- What an instruction at the program counter does. -/
def perform (m : Machine) : Instruction → Outcome
  | .cls =>
      done { m.next with screen := Screen.blank m.config.screenWidth m.config.screenHeight }
  | .ret =>
      match m.stack with
      | [] => (m, some (.stackUnderflow m.pc))
      | top :: rest => done ({ m with stack := rest }.jumpTo top.toNat)
  | .jp a => done (m.jumpTo a.toNat)
  | .call a =>
      if m.stack.length = 16 then (m, some (.stackOverflow m.pc))
      else done ({ m with stack := m.next.pc :: m.stack }.jumpTo a.toNat)
  | .seByte x kk => done (m.nextOrSkip (m.value x = kk.toNat))
  | .sneByte x kk => done (m.nextOrSkip (m.value x ≠ kk.toNat))
  | .seReg x y => done (m.nextOrSkip (m.value x = m.value y))
  | .ldByte x kk => done (m.next.put x kk.toNat)
  | .addByte x kk => done (m.next.put x (m.value x + kk.toNat))
  | .ldReg x y => done (m.next.put x (m.value y))
  | .or x y => done (m.next.put x (m.value x ||| m.value y))
  | .and x y => done (m.next.put x (m.value x &&& m.value y))
  | .xor x y => done (m.next.put x (m.value x ^^^ m.value y))
  | .addReg x y =>
      done (m.next.putFlagged x (m.value x + m.value y) ((m.value x + m.value y) / 0x100))
  | .sub x y =>
      done (m.next.putFlagged x (m.value x + 0x100 - m.value y)
        (if m.value y ≤ m.value x then 1 else 0))
  | .shr x y => done (m.next.putFlagged x (m.value y / 2) (m.value y % 2))
  | .subn x y =>
      done (m.next.putFlagged x (m.value y + 0x100 - m.value x)
        (if m.value x ≤ m.value y then 1 else 0))
  | .shl x y => done (m.next.putFlagged x (m.value y * 2) (m.value y / 0x80))
  | .sneReg x y => done (m.nextOrSkip (m.value x ≠ m.value y))
  | .ldIndex a => done { m.next with index := a }
  | .jpOffset a => done (m.jumpTo (a.toNat + m.value Reg.first))
  | .rnd x kk =>
      done { m.next.put x ((Random.byte m.drawn).toNat &&& kk.toNat) with drawn := m.drawn + 1 }
  | .drw x y n =>
      let drawing := m.screen.draw (m.value x) (m.value y) (m.indexed n)
      done { m.next.put Reg.flag drawing.2.toNat with screen := drawing.1 }
  | .skp x => done (m.nextOrSkip (m.keyboard.isPressed (m.reg x)))
  | .sknp x => done (m.nextOrSkip ¬m.keyboard.isPressed (m.reg x))
  | .ldFromDelay x =>
      if m.delay.value ≠ 0 ∧ m.loopsOn x then
        done { m.put x m.delay.value.toNat with wait := { WaitFlags.none with delay := true } }
      else done (m.next.put x m.delay.value.toNat)
  | .ldKey x =>
      done { m.next with keyRegister := x, wait := { WaitFlags.none with keyPress := true } }
  | .ldDelay x => done { m.next with delay := ⟨m.reg x⟩ }
  | .ldSound x => done { m.next with sound := ⟨m.reg x⟩, beeping := m.value x ≠ 0 }
  | .addIndex x => done (m.next.pointTo (m.index.toNat + m.value x))
  | .ldGlyph x => done { m.next with index := (5 * (m.value x % 16)).toUInt16 }
  | .ldDecimal x =>
      done (m.next.putIndexed
        ([m.value x / 100, m.value x / 10 % 10, m.value x % 10].map Nat.toUInt8))
  | .save x =>
      done ((m.next.putIndexed (m.registers.toList.take (x.val + 1))).pointTo
        (m.index.toNat + x.val + 1))
  | .restore x =>
      done ({ m.next with
        registers := Vector.ofFn fun i =>
          if i ≤ x then m.memory.byte (m.index.toNat + i.val) else m.reg i
        }.pointTo (m.index.toNat + x.val + 1))

/-- What a word at the program counter does, of which the decoding is given. -/
def performDecoded (m : Machine) (w : UInt16) : Option Instruction → Outcome
  | none => (m, some (.illegalInstruction m.pc w))
  | some i => m.perform i

/-- Decode the word at the program counter and perform it. -/
def stepDecoded (m : Machine) : Outcome :=
  m.performDecoded (m.wordAt m.pc.toNat) (Instruction.decode (m.wordAt m.pc.toNat))

end Chip8.Machine
