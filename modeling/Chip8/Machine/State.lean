import Chip8.Machine.Config
import Chip8.Machine.Instruction
import Chip8.Machine.Keyboard
import Chip8.Machine.Random
import Chip8.Machine.Screen
import Chip8.Machine.Timer
import Chip8.Machine.Wait

/-! # Machine state

The complete state of a machine, and the events that change it from outside.

* **State.** Registers, program counter, index, call stack, memory, screen, keyboard, the two
  timers, what the machine is waiting for, and its place in the stream of random bytes.
* **Reset** brings every part back to its initial value; memory and screen keep their sizes.
* **Events.** A pulse counts both timers down; a delay timer that runs out ends a delay wait and a
  sound timer that runs out ends the beep. A key press ends a wait for a press and starts the wait
  for the release of that key. -/

namespace Chip8

/-- The number of return addresses that the call stack holds. -/
def stackDepth : Nat := 16

/-- A condition that stops execution. The machine stays at the address given. -/
inductive Fault where
  | illegalInstruction (address opcode : UInt16)
  | stackOverflow (address : UInt16)
  | stackUnderflow (address : UInt16)
deriving DecidableEq, Repr

namespace Fault

/-- Where the fault arose. -/
def address : Fault → UInt16
  | illegalInstruction a _ => a
  | stackOverflow a => a
  | stackUnderflow a => a

def message : Fault → String
  | illegalInstruction a w =>
      "illegal instruction 0x" ++ Numeral.hex 4 w.toNat ++ " at address 0x" ++
        Numeral.hex 3 a.toNat
  | stackOverflow a => "call stack overflow at address 0x" ++ Numeral.hex 3 a.toNat
  | stackUnderflow a => "return with empty call stack at address 0x" ++ Numeral.hex 3 a.toNat

end Fault

/-- The complete state of a machine. -/
structure Machine where
  config : Config
  pc : UInt16
  index : UInt16
  registers : Vector UInt8 16
  /-- The return addresses, the innermost first. -/
  stack : List UInt16
  memory : Memory
  screen : Screen
  keyboard : Keyboard
  delay : Timer
  sound : Timer
  beeping : Bool
  wait : WaitFlags
  /-- The register that an awaited key press goes to. -/
  keyRegister : Reg
  /-- The key whose release is awaited. -/
  awaitedKey : Key
  /-- The number of random bytes drawn so far. -/
  drawn : Nat
deriving DecidableEq, Repr

namespace Machine

/-- A machine of the given shape in its initial state. -/
def new (config : Config) : Machine where
  config := config
  pc := config.loadAddress
  index := 0
  registers := Vector.replicate 16 0
  stack := []
  memory := Memory.blank config.memorySize
  screen := Screen.blank config.screenWidth config.screenHeight
  keyboard := Keyboard.released
  delay := Timer.idle
  sound := Timer.idle
  beeping := false
  wait := WaitFlags.none
  keyRegister := Reg.first
  awaitedKey := Key.ofCode 0
  drawn := 0

/-- Bring every part of the machine back to its initial value. -/
def reset (m : Machine) : Machine :=
  { m with
    pc := m.config.loadAddress
    index := 0
    registers := Vector.replicate 16 0
    stack := []
    memory := m.memory.reset
    screen := m.screen.clear
    keyboard := Keyboard.released
    delay := Timer.idle
    sound := Timer.idle
    beeping := false
    wait := WaitFlags.none
    keyRegister := Reg.first
    awaitedKey := Key.ofCode 0
    drawn := 0 }

/-- The number of live return addresses. -/
def sp (m : Machine) : Nat := m.stack.length

def reg (m : Machine) (r : Reg) : UInt8 := m.registers[r]

def setReg (m : Machine) (r : Reg) (value : UInt8) : Machine :=
  { m with registers := m.registers.set r value r.isLt }

/-- Set the register with the number in the low four bits of `r`. -/
def setRegister (m : Machine) (r value : UInt8) : Machine :=
  m.setReg (Reg.ofCode r) value

/-- The address `amount` behind `a`, wrapped to the memory. -/
def offset (m : Machine) (a : UInt16) (amount : Nat) : UInt16 :=
  (m.memory.wrap (a.toNat + amount)).toUInt16

/-- Continue at an address, wrapped to the memory. -/
def setPc (m : Machine) (a : UInt16) : Machine := { m with pc := m.offset a 0 }

/-- Wrap an index to the memory and to twelve bits. -/
def maskIndex (m : Machine) (i : Nat) : UInt16 := (m.memory.wrap i % 0x1000).toUInt16

def setIndex (m : Machine) (i : UInt16) : Machine := { m with index := m.maskIndex i.toNat }

def setDelay (m : Machine) (value : UInt8) : Machine := { m with delay := ⟨value⟩ }

/-- Await one more event. -/
def await (m : Machine) (events : WaitFlags) : Machine := { m with wait := m.wait.insert events }

/-- Stop awaiting events. -/
def resume (m : Machine) (events : WaitFlags) : Machine := { m with wait := m.wait.remove events }

/-- One pulse for both timers. -/
def pulse (m : Machine) : Machine :=
  let (delay, delayEnded) := m.delay.pulse
  let (sound, soundEnded) := m.sound.pulse
  { m with
    delay := delay
    wait := if delayEnded then m.wait.remove { WaitFlags.none with delay := true } else m.wait
    sound := sound
    beeping := if soundEnded then false else m.beeping }

/-- A key press ends the wait for one: the key goes to the awaiting register, and its release is
awaited next. -/
def keyPressed (m : Machine) (code : UInt8) : Machine :=
  if m.wait.keyPress then
    let key := Key.ofCode code
    { m.setReg m.keyRegister key.val.toUInt8 with
      awaitedKey := key
      wait := { m.wait with keyPress := false, keyRelease := true } }
  else m

/-- The release of the awaited key ends the wait for it. -/
def keyReleased (m : Machine) (code : UInt8) : Machine :=
  if m.wait.keyRelease ∧ Key.ofCode code = m.awaitedKey then
    { m with wait := { m.wait with keyRelease := false } }
  else m

/-- Hold a key down without telling the machine that it was pressed. -/
def holdKey (m : Machine) (code : UInt8) : Machine :=
  { m with keyboard := m.keyboard.press code }

/-- Let go of a key without telling the machine that it was released. -/
def letGoKey (m : Machine) (code : UInt8) : Machine :=
  { m with keyboard := m.keyboard.release code }

/-- A key goes down. -/
def keyDown (m : Machine) (code : UInt8) : Machine := (m.holdKey code).keyPressed code

/-- A key goes up. -/
def keyUp (m : Machine) (code : UInt8) : Machine := (m.letGoKey code).keyReleased code

/-- Load a binary into the memory. -/
def load (m : Machine) (a : UInt16) (bytes : List UInt8) : Except LoadError Machine :=
  (m.memory.load a bytes).map fun memory => { m with memory := memory }

/-- Take the current picture off the screen. -/
def takeFrame (m : Machine) : Frame × Machine :=
  let (frame, screen) := m.screen.takeFrame
  (frame, { m with screen := screen })

end Machine

end Chip8
