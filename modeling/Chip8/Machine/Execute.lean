import Chip8.Machine.State

/-! # Execution

What the machine does with an instruction word.

* **Dispatch.** `Machine.execute` picks the handler of a word by its leading nibble; three families
  look at further bits. A handler gets the word and its address, the program counter already
  standing behind the word.
* **Faults** arise before a handler changes anything.
* **Flags.** Arithmetic writes register `VF` last, so that it holds the flag even as destination.
* **Ticks.** `Machine.tick` executes the word at the program counter unless the machine is waiting;
  after a fault the program counter stands at the word again.
* **Delay loops.** A machine that reads its running delay timer in a loop of the shape
  `LD Vx, DT` / `SE Vx, 0` / `JP` back to the `LD` is parked on the `LD` until the timer runs out. -/

namespace Chip8.Machine

open Word

/-- The outcome of an execution step. -/
abbrev Outcome := Machine × Option Fault

/-- The step succeeded. -/
def done (m : Machine) : Outcome := (m, none)

/-- The word at the address means nothing. -/
def illegal (m : Machine) (w a : UInt16) : Outcome := (m, some (.illegalInstruction a w))

/-- Skip the next word if the condition holds. -/
def skipIf (m : Machine) (condition : Bool) : Machine :=
  if condition then { m with pc := m.offset m.pc 2 } else m

/-- Clearing the screen and returning from a call. -/
def executeSystem (m : Machine) (w a : UInt16) : Outcome :=
  if w = 0x00E0 then done { m with screen := m.screen.clear }
  else if w = 0x00EE then
    match m.stack with
    | [] => (m, some (.stackUnderflow a))
    | top :: rest => done { m with stack := rest, pc := top }
  else m.illegal w a

/-- Calling a subroutine. -/
def executeCall (m : Machine) (w a : UInt16) : Outcome :=
  if m.sp = stackDepth then (m, some (.stackOverflow a))
  else done ({ m with stack := m.pc :: m.stack }.setPc (nnn w))

/-- Write a result and a flag, the flag last. -/
def setFlagged (m : Machine) (r : Reg) (result flag : UInt8) : Machine :=
  (m.setReg r result).setReg Reg.flag flag

/-- Register-register arithmetic. -/
def executeArithmetic (m : Machine) (w a : UInt16) : Outcome :=
  let vx := m.reg (x w)
  let vy := m.reg (y w)
  match n w with
  | 0x0 => done (m.setReg (x w) vy)
  | 0x1 => done (m.setReg (x w) (vx ||| vy))
  | 0x2 => done (m.setReg (x w) (vx &&& vy))
  | 0x3 => done (m.setReg (x w) (vx ^^^ vy))
  | 0x4 => done (m.setFlagged (x w) (vx + vy) (if 0x100 ≤ vx.toNat + vy.toNat then 1 else 0))
  | 0x5 => done (m.setFlagged (x w) (vx - vy) (if vy ≤ vx then 1 else 0))
  | 0x6 => done (m.setFlagged (x w) (vy >>> 1) (vy &&& 1))
  | 0x7 => done (m.setFlagged (x w) (vy - vx) (if vx ≤ vy then 1 else 0))
  | 0xE => done (m.setFlagged (x w) (vy <<< 1) (vy >>> 7))
  | _ => m.illegal w a

/-- The next random byte under a mask. -/
def executeRandom (m : Machine) (w : UInt16) : Machine :=
  { m.setReg (x w) (Random.byte m.drawn &&& kk w) with drawn := m.drawn + 1 }

/-- The rows of the sprite of the given height at the index. -/
def sprite (m : Machine) (height : Nat) : List UInt8 :=
  (List.range height).map fun i => m.memory.read (m.index + i.toUInt16)

/-- Drawing a sprite; the flag tells whether it collides. -/
def executeDraw (m : Machine) (w : UInt16) : Machine :=
  let (screen, collides) :=
    m.screen.draw (m.reg (x w)).toNat (m.reg (y w)).toNat (m.sprite (n w))
  { m with screen := screen }.setReg Reg.flag (if collides then 1 else 0)

/-- Skipping by the state of a key. -/
def executeSkipKey (m : Machine) (w a : UInt16) : Outcome :=
  let pressed := m.keyboard.isPressed (m.reg (x w))
  if kk w = 0x9E then done (m.skipIf pressed)
  else if kk w = 0xA1 then done (m.skipIf !pressed)
  else m.illegal w a

/-- Whether the words behind the address `a` skip on a zero in `Vx` and else jump back to `a`. -/
def isDelayLoop (m : Machine) (a : UInt16) (r : Reg) : Bool :=
  m.memory.word (m.offset a 2) = 0x3000 + r.val.toUInt16 * 0x100 &&
    m.memory.word (m.offset a 4) = 0x1000 + nnn a

/-- Reading the delay timer, which parks the machine in a delay loop. -/
def readDelay (m : Machine) (r : Reg) (a : UInt16) : Machine :=
  let value := m.delay.value
  let read := m.setReg r value
  if 0 < value ∧ m.isDelayLoop a r then
    { read with pc := a }.await { WaitFlags.none with delay := true }
  else read

/-- Write the three decimal digits of a register to the index and behind it. -/
def storeDecimal (m : Machine) (r : Reg) : Machine :=
  let value := m.reg r
  { m with
    memory := ((m.memory.write m.index (value / 100)).write (m.index + 1)
      (value / 10 % 10)).write (m.index + 2) (value % 10) }

/-- The numbers of the registers up to `r`, in ascending order. -/
def upTo (r : Reg) : List Reg := (List.finRange 16).filter (· ≤ r)

/-- Move the index behind a block of registers. -/
def passBlock (m : Machine) (r : Reg) : Machine :=
  { m with index := m.maskIndex (m.index.toNat + r.val + 1) }

/-- Write the registers up to `r` to the index and behind it. -/
def saveBlock (m : Machine) (r : Reg) : Machine :=
  { m with
    memory := (upTo r).foldl
      (fun memory (i : Reg) => memory.write (m.index + i.val.toUInt16) (m.reg i)) m.memory
    }.passBlock r

/-- Read the registers up to `r` from the index and behind it. -/
def restoreBlock (m : Machine) (r : Reg) : Machine :=
  ((upTo r).foldl
    (fun acc (i : Reg) => acc.setReg i (m.memory.read (m.index + i.val.toUInt16))) m).passBlock r

/-- Timers, keys, and the memory at the index. -/
def executeDevice (m : Machine) (w a : UInt16) : Outcome :=
  let vx := m.reg (x w)
  match (kk w).toNat with
  | 0x07 => done (m.readDelay (x w) a)
  | 0x0A => done ({ m with keyRegister := x w }.await { WaitFlags.none with keyPress := true })
  | 0x15 => done (m.setDelay vx)
  | 0x18 => done { m with sound := ⟨vx⟩, beeping := 0 < vx }
  | 0x1E => done { m with index := m.maskIndex (m.index.toNat + vx.toNat) }
  | 0x29 => done { m with index := (vx % 16).toUInt16 * glyphHeight }
  | 0x33 => done (m.storeDecimal (x w))
  | 0x55 => done (m.saveBlock (x w))
  | 0x65 => done (m.restoreBlock (x w))
  | _ => m.illegal w a

/-- Execute the word `w` at the address `a`. -/
def execute (m : Machine) (w a : UInt16) : Outcome :=
  match family w with
  | 0x0 => m.executeSystem w a
  | 0x1 => done (m.setPc (nnn w))
  | 0x2 => m.executeCall w a
  | 0x3 => done (m.skipIf (m.reg (x w) = kk w))
  | 0x4 => done (m.skipIf (m.reg (x w) ≠ kk w))
  | 0x5 => if n w = 0 then done (m.skipIf (m.reg (x w) = m.reg (y w))) else m.illegal w a
  | 0x6 => done (m.setReg (x w) (kk w))
  | 0x7 => done (m.setReg (x w) (m.reg (x w) + kk w))
  | 0x8 => m.executeArithmetic w a
  | 0x9 => if n w = 0 then done (m.skipIf (m.reg (x w) ≠ m.reg (y w))) else m.illegal w a
  | 0xA => done { m with index := nnn w }
  | 0xB => done (m.setPc (nnn w + (m.reg Reg.first).toUInt16))
  | 0xC => done (m.executeRandom w)
  | 0xD => done (m.executeDraw w)
  | 0xE => m.executeSkipKey w a
  | 0xF => m.executeDevice w a
  | _ => m.illegal w a

/-- The word that is executed next. -/
def nextWord (m : Machine) : UInt16 := m.memory.word m.pc

/-- Execute one instruction, or nothing while an event is awaited. -/
def tick (m : Machine) : Outcome :=
  if m.wait.isEmpty then
    let a := m.pc
    let (next, fault) := { m with pc := m.offset a 2 }.execute m.nextWord a
    match fault with
    | none => (next, none)
    | some f => ({ next with pc := a }, some f)
  else (m, none)

/-- The trace line of the instruction that the next tick executes, if it executes one. -/
def traceLine? (m : Machine) : Option String :=
  if m.wait.isEmpty then some (Instruction.trace m.pc m.nextWord) else none

/-- Tick at most `n` times and stop at the first fault: the number of ticks that succeeded, and the
outcome of the last one. -/
def ticks (m : Machine) : Nat → Nat × Outcome
  | 0 => (0, m, none)
  | n + 1 =>
      match m.tick with
      | (next, none) =>
          let (count, outcome) := next.ticks n
          (count + 1, outcome)
      | (next, some f) => (0, next, some f)

/-- A waiting machine does nothing. -/
theorem tick_of_waiting {m : Machine} (h : m.wait.isEmpty = false) : m.tick = (m, none) := by
  simp [tick, h]

end Chip8.Machine
