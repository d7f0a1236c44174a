import Chip8.Emulator.Event
import Chip8.Emulator.Queue
import Chip8.Machine.Execute

/-! # Emulator state

A machine together with what runs it: the queue of commands, the breakpoints, the throttle and those
who are notified. Every operation answers with the emulator behind it and the events that it caused,
in their order (`Emulated`). -/

namespace Chip8

/-- How an emulator is set up. -/
structure EmulatorConfig where
  machine : Config
  speed : Float32
  /-- The time from one pulse to the next in nanoseconds, if pulses come by themselves. -/
  pulsePeriod : Option Nat

/-- The time from one pulse to the next in nanoseconds. -/
def pulseSpacing : Nat := 1000000000 / pulsesPerSecond

/-- How an emulator is set up if nothing else is said. -/
def EmulatorConfig.standard : EmulatorConfig := ⟨Config.standard, 1, some pulseSpacing⟩

/-- Those who look on. -/
structure Observers where
  /-- Whether there is a display that takes frames. -/
  display : Bool
  /-- Whether every instruction is noted. -/
  traces : Bool
  /-- Listeners that fail, and their messages. -/
  failing : List (Callee × String)
deriving DecidableEq, Repr

/-- Nobody looks on. -/
def Observers.none : Observers := ⟨false, false, []⟩

/-- The hooks of those who look on: those that fail, and one that does not. -/
def Observers.hooks (o : Observers) : List Hook :=
  (o.failing.filterMap fun (c, message) =>
    if c = .shutdownHook then some ⟨some message⟩ else .none) ++ [⟨.none⟩]

/-- A machine and what runs it. -/
structure Emulator where
  machine : Machine
  queue : Queue
  breakpoints : Breakpoints
  run : RunState
  throttle : Throttle
  /-- Whether the next instruction is executed even at a breakpoint. -/
  skipBreakpoint : Bool
  ticksSinceNotify : Nat
  /-- The binary loaded last and its address. -/
  program : Option (UInt16 × List UInt8)
  observers : Observers
  /-- What is called at the end, in the order of registration. -/
  hooks : List Hook
  /-- The time in nanoseconds. -/
  clock : Nat
  finished : Bool

/-- An emulator behind an operation, and the events that the operation caused. -/
abbrev Emulated := Emulator × List Event

/-- Do one thing after another. -/
def Emulated.andThen (o : Emulated) (f : Emulator → Emulated) : Emulated :=
  let (e, events) := f o.1
  (e, o.2 ++ events)

namespace Emulator

/-- A stopped emulator. -/
def new (config : EmulatorConfig) (observers : Observers) : Emulator where
  machine := Machine.new config.machine
  queue := Queue.empty config.pulsePeriod
  breakpoints := Breakpoints.none
  run := .stopped
  throttle := Throttle.ofSpeed config.speed
  skipBreakpoint := false
  ticksSinceNotify := 0
  program := none
  observers := observers
  hooks := observers.hooks
  clock := 0
  finished := false

/-- What is noted about the listeners of a kind that fail. -/
def failures (e : Emulator) (callee : Callee) : List Event :=
  e.observers.failing.filterMap fun (c, message) =>
    if c = callee then some (.failed c message) else none

/-- Let the queue know what the machine is waiting for. -/
def syncWait (e : Emulator) : Emulator :=
  { e with queue := e.queue.setWait e.machine.wait }

/-- Show the screen to the display if it has changed. -/
def present (e : Emulator) : Emulated :=
  if e.observers.display ∧ e.machine.screen.dirty then
    let (frame, machine) := e.machine.takeFrame
    ({ e with machine := machine }, .frame frame :: e.failures .displaySink)
  else (e, [])

/-- Tell the display and the listeners where execution is. -/
def notifyTick (e : Emulator) : Emulated :=
  { e with ticksSinceNotify := 0 }.present |>.andThen fun e =>
    (e, .tick e.machine.pc :: e.failures .tickListener)

/-- Tell that the run state has changed. -/
def notifyState (e : Emulator) (reason : Reason) (fault : Option Fault) : Emulated :=
  let change : StateChange := ⟨e.run, reason, e.machine.pc, fault⟩
  (e, [.changed change, .state change] ++ e.failures .stateListener)

/-- Tell that the breakpoints have changed. -/
def notifyBreakpoints (e : Emulator) : Emulated :=
  (e, .breakpoints e.breakpoints :: e.failures .breakpointListener)

/-- Stop executing. -/
def halt (e : Emulator) (reason : Reason) (fault : Option Fault) : Emulated :=
  { e with run := .stopped }.notifyTick.andThen fun e => e.notifyState reason fault

/-- Stop executing because of a fault. -/
def haltAt (e : Emulator) (f : Fault) : Emulated :=
  let (e, events) := e.halt .stopped (some f)
  (e, .faulted f :: events)

/-- What is noted about the next instruction. -/
def trace (e : Emulator) : List Event :=
  if e.observers.traces then e.machine.traceLine?.toList.map .traced else []

/-- Execute one instruction. -/
def tick (e : Emulator) : Emulator × List Event × Option Fault :=
  let (machine, fault) := e.machine.tick
  ({ e with machine := machine }, e.trace, fault)

@[simp] theorem wait_syncWait (e : Emulator) : e.syncWait.queue.wait = e.machine.wait := rfl

end Emulator

end Chip8
