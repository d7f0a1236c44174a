import Chip8.Emulator.Command
import Chip8.Emulator.Throttle
import Chip8.Text.Notice

/-! # Events

What an emulator lets others know.

* Notifications go to those who registered for them; a listener may fail, which is noted and has no
  other effect.
* Answers go to the one who asked. -/

namespace Chip8

/-- What an emulator is doing. -/
inductive RunState where
  | stopped
  | running
  /-- Executing a single instruction. -/
  | stepping
deriving DecidableEq, Repr

def RunState.text : RunState → String
  | stopped => "Stopped"
  | running => "Running"
  | stepping => "Stepping"

/-- Why the run state changed. -/
inductive Reason where
  | started
  | stopped
  | stoppedBreakpoint
deriving DecidableEq, Repr

def Reason.text : Reason → String
  | started => "Started"
  | stopped => "Stopped"
  | stoppedBreakpoint => "StoppedBreakpoint"

/-- A change of the run state. -/
structure StateChange where
  state : RunState
  reason : Reason
  pc : UInt16
  /-- The fault that stopped execution. -/
  fault : Option Fault
deriving DecidableEq, Repr

/-- What an emulator lets others know. -/
inductive Event where
  | tick (pc : UInt16)
  /-- A frame for the display. -/
  | frame (f : Frame)
  | state (change : StateChange)
  | breakpoints (bs : Breakpoints)
  /-- A hook was called at the end. -/
  | shutdown
  | notice (n : Notice)
  /-- The answer to a load. -/
  | loaded (result : Except LoadError Unit)
  /-- The answer of a task. -/
  | answered (result : Except String UInt16)

/-- Code of others that an emulator calls. -/
inductive Callee where
  | task
  | tickListener
  | stateListener
  | breakpointListener
  | displaySink
  | shutdownHook
deriving DecidableEq, Repr

def Callee.text : Callee → String
  | task => "task"
  | tickListener => "tick listener"
  | stateListener => "state listener"
  | breakpointListener => "breakpoint listener"
  | displaySink => "display sink"
  | shutdownHook => "shutdown hook"

namespace Event

private def say (condition : Condition) (category : Category) (text : String) : Event :=
  notice ⟨condition, category, text⟩

/-- Code of others failed. -/
def failed (callee : Callee) (message : String) : Event :=
  say .always .error ("A " ++ callee.text ++ " panicked: " ++ message)

/-- Execution came to a breakpoint. -/
def reached (pc : UInt16) : Event :=
  say .always .warning
    ("Reached breakpoint at 0x" ++ Numeral.hex 3 pc.toNat ++ ". Pausing execution.")

/-- A fault stopped execution. -/
def faulted (f : Fault) : Event :=
  say .always .error ("Execution stopped: " ++ f.message ++ ".")

/-- The program could not be loaded again. -/
def notReloaded (e : LoadError) : Event :=
  say .always .error ("Failed to reload program: " ++ e.message)

def wasReset : Event := say .sometimes .warning "Reset machine to initial state."

def throttled (t : Throttle) : Event :=
  say .sometimes .info
    ("Throttle set to " ++ Numeral.decimal t.delayIterations ++ " delay iterations, notifying every " ++
      Numeral.decimal t.notifyInterval ++ " ticks.")

def loadedBytes (count : Nat) (address : UInt16) : Event :=
  say .sometimes .info
    ("Loaded " ++ Numeral.decimal count ++ " bytes at 0x" ++ Numeral.hex 3 address.toNat ++ ".")

def changed (c : StateChange) : Event :=
  say .sometimes .info
    ("State changed to " ++ c.state.text ++ " (" ++ c.reason.text ++ ") at 0x" ++
      Numeral.hex 3 c.pc.toNat ++ ".")

def terminated : Event := say .sometimes .info "Emulator terminated."

/-- An instruction is executed. -/
def traced (line : String) : Event := say .sometimes .info line

end Event

/-- What is called when an emulator ends; it may fail, with a message. -/
structure Hook where
  failure : Option String
deriving DecidableEq, Repr

/-- What comes of calling a hook. -/
def Hook.event (hook : Hook) : Event :=
  match hook.failure with
  | none => .shutdown
  | some message => .failed .shutdownHook message

end Chip8
