import Chip8.Decimal.Shortest
import Chip8.Emulator.Breakpoints
import Chip8.Machine.State

/-! # Commands

What an emulator can be asked to do, and why it refuses.

* A task is a piece of work on the machine. It answers with a number or fails with a message; what
  it has done to the machine until then counts either way.
* `Command.text` is how a command is written in diagnostics. -/

namespace Chip8

/-- A piece of work on the machine. -/
abbrev Task := Machine → Machine × Except String UInt16

/-- A change to the breakpoints. -/
inductive BreakpointChange where
  | add (b : Breakpoint) (enabled : Bool)
  | remove (b : Breakpoint)
  | setEnabled (b : Breakpoint) (enabled : Bool)
  | clearTemporary
deriving DecidableEq, Repr

/-- Make a change. -/
def BreakpointChange.apply (bs : Breakpoints) : BreakpointChange → Breakpoints
  | add b enabled => bs.add b enabled
  | remove b => bs.remove b
  | setEnabled b enabled => bs.setEnabled b enabled
  | clearTemporary => bs.clearTemporary

/-- What an emulator can be asked to do. -/
inductive Command where
  | start
  | stop
  /-- Execute one instruction and stop. -/
  | step
  | reset
  /-- Finish for good. -/
  | terminate
  | run (task : Task)
  | changeBreakpoints (change : BreakpointChange)
  | keyDown (key : UInt8)
  | keyUp (key : UInt8)
  /-- A pulse for the timers. -/
  | pulse
  | setSpeed (speed : Float32)
  /-- Load a binary, also after every later reset. -/
  | load (address : UInt16) (bytes : List UInt8)

namespace Command

private def flagText (b : Bool) : String := if b then "true" else "false"

private def breakpointText (b : Breakpoint) : String :=
  "Breakpoint \x7b address: " ++ Numeral.decimal b.address.toNat ++ ", is_temporary: " ++
    flagText b.temporary ++ " \x7d"

private def entryText (b : Breakpoint) (enabled : Bool) : String :=
  "\x7b breakpoint: " ++ breakpointText b ++ ", enabled: " ++ flagText enabled ++ " \x7d"

private def changeText : BreakpointChange → String
  | .add b enabled => "Add " ++ entryText b enabled
  | .remove b => "Remove(" ++ breakpointText b ++ ")"
  | .setEnabled b enabled => "SetEnabled " ++ entryText b enabled
  | .clearTemporary => "ClearTemporary"

/-- How the command is written in diagnostics. -/
def text : Command → String
  | start => "Start"
  | stop => "Stop"
  | step => "Step"
  | reset => "Reset"
  | terminate => "Terminate"
  | run _ => "Run(..)"
  | changeBreakpoints change => "ChangeBreakpoints(" ++ changeText change ++ ")"
  | keyDown key => "KeyDown(" ++ Numeral.hex 1 key.toNat ++ ")"
  | keyUp key => "KeyUp(" ++ Numeral.hex 1 key.toNat ++ ")"
  | pulse => "Pulse"
  | setSpeed speed => "SetSpeed(" ++ Decimal.text speed.toBits ++ ")"
  | load address bytes =>
      "Load \x7b address: 0x" ++ Numeral.hex 3 address.toNat ++ ", len: " ++
        Numeral.decimal bytes.length ++ " \x7d"

def isTerminate : Command → Bool
  | terminate => true
  | _ => false

end Command

/-- Why a request is refused or fails. -/
inductive Refusal where
  | terminated
  /-- The emulator is gone without an answer. -/
  | disconnected
  /-- A task asks its own emulator and waits for the answer. -/
  | wouldBlock
  /-- The task failed. -/
  | taskFailed
  | load (e : LoadError)
deriving DecidableEq, Repr

def Refusal.message : Refusal → String
  | terminated => "the emulator has been terminated"
  | disconnected => "the emulator thread stopped before answering"
  | wouldBlock => "synchronous calls cannot be made from the emulator thread"
  | taskFailed => "the task panicked on the emulator thread"
  | load e => e.message

end Chip8
