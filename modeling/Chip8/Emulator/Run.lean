import Chip8.Emulator.State

/-! # Running

What an emulator does: it obeys commands in the order of their submission, and while it is running
it executes instructions between them.

* `cycle` executes one instruction, unless there is an enabled breakpoint. The first instruction
  behind a start is executed even so.
* `apply` obeys a command; `finish` obeys what is left of them and ends the emulator.
* `turn` is one round of its loop, and `settle` repeats it until nothing is left to do. -/

namespace Chip8

namespace Emulator

/-- Pause at a breakpoint. A temporary one is gone after that. -/
def pauseAt (e : Emulator) (b : Breakpoint) : Emulated :=
  let removed : Emulated :=
    if b.temporary then { e with breakpoints := e.breakpoints.remove b }.notifyBreakpoints
    else (e, [])
  removed.andThen fun e =>
    let (e, events) := e.halt .stoppedBreakpoint none
    (e, .reached e.machine.pc :: events)

/-- Count an executed instruction, and notify if that is due. -/
def countTick (e : Emulator) : Emulated :=
  let e := { e with ticksSinceNotify := e.ticksSinceNotify + 1 }
  if e.throttle.notifyInterval ≤ e.ticksSinceNotify then e.notifyTick else (e, [])

/-- Let the time of one tick pass. -/
def delay (e : Emulator) : Emulator := { e with clock := e.clock + e.throttle.tickTime }

/-- Execute an instruction of a running machine. -/
def executeNext (e : Emulator) : Emulated :=
  let (e, traced, fault) := e.tick
  let (e, events) : Emulated := match fault with
    | some f => e.haltAt f
    | none =>
        let (e, events) := e.syncWait.countTick
        (e.delay, events)
  (e, traced ++ events)

/-- One cycle of a running machine. -/
def cycle (e : Emulator) : Emulated :=
  let hit := if e.skipBreakpoint then none else e.breakpoints.enabledAt e.machine.pc
  let e := { e with skipBreakpoint := false }
  match hit with
  | some b => e.pauseAt b
  | none => e.executeNext

/-! ### Commands -/

/-- Start executing. -/
def start (e : Emulator) : Emulated :=
  if e.run = .running then (e, [])
  else { e with run := .running, skipBreakpoint := true }.syncWait.notifyState .started none

/-- Execute one instruction and stop. -/
def step (e : Emulator) : Emulated :=
  let (e, traced, fault) := { e with run := .stepping }.tick
  let e := e.syncWait
  let (e, events) := match fault with
    | some f => e.haltAt f
    | none => e.halt .stopped none
  (e, traced ++ events)

/-- Forget the temporary breakpoints. -/
def dropTemporary (e : Emulator) : Emulated :=
  let had := e.breakpoints.hasTemporary
  let e := { e with breakpoints := e.breakpoints.clearTemporary }
  if had then e.notifyBreakpoints else (e, [])

/-- Load the binary loaded last again. -/
def reload (e : Emulator) : Emulated :=
  match e.program with
  | none => (e, [])
  | some (address, bytes) =>
      match e.machine.load address bytes with
      | .ok machine => ({ e with machine := machine }, [])
      | .error err => (e, [.notReloaded err])

/-- Bring the machine back to its initial state, with the program loaded. -/
def reset (e : Emulator) : Emulated :=
  let stopped : Emulated :=
    if e.run = .running then { e with run := .stopped }.notifyState .stopped none else (e, [])
  stopped.andThen dropTemporary
    |>.andThen (fun e => { e with machine := e.machine.reset }.reload)
    |>.andThen fun e =>
      let (e, events) := { e with queue := e.queue.setWait .none }.notifyTick
      (e, .wasReset :: events)

/-- Run a task and answer with its result. -/
def runTask (e : Emulator) (task : Task) : Emulated :=
  let (machine, result) := task e.machine
  let failure := match result with
    | .ok _ => []
    | .error message => [Event.failed .task message]
  ({ e with machine := machine }.syncWait, failure ++ [.answered result])

/-- Load a binary, and remember it if it fits. -/
def load (e : Emulator) (address : UInt16) (bytes : List UInt8) : Emulated :=
  match e.machine.load address bytes with
  | .ok machine =>
      ({ e with machine := machine, program := some (address, bytes) },
        [.loadedBytes bytes.length address, .loaded (.ok ())])
  | .error err => (e, [.loaded (.error err)])

/-- Obey a command. A `terminate` ends the loop and is nothing to obey. -/
def apply (e : Emulator) : Command → Emulated
  | .start => e.start
  | .stop => if e.run = .running then e.halt .stopped none else (e, [])
  | .step => e.step
  | .reset => e.reset
  | .terminate => (e, [])
  | .run task => e.runTask task
  | .changeBreakpoints change =>
      { e with breakpoints := change.apply e.breakpoints }.notifyBreakpoints
  | .keyDown key => ({ e with machine := e.machine.keyDown key }.syncWait, [])
  | .keyUp key => ({ e with machine := e.machine.keyUp key }.syncWait, [])
  | .pulse => ({ e with machine := e.machine.pulse }.syncWait, [])
  | .setSpeed speed =>
      let throttle := Throttle.ofSpeed speed
      ({ e with throttle := throttle }, [.throttled throttle])
  | .load address bytes => e.load address bytes

/-- Obey commands one after the other. -/
def applyAll (e : Emulator) : List Command → Emulated
  | [] => (e, [])
  | c :: cs => (e.apply c).andThen fun e => e.applyAll cs

/-- Tell that execution has stopped, call the hooks, and end. -/
def leave (e : Emulator) : Emulated :=
  { e with run := .stopped }.notifyState .stopped none |>.andThen fun e =>
    ({ e with finished := true, queue := e.queue.abandon, hooks := [] },
      e.hooks.map Hook.event ++ [Event.terminated])

/-- Obey what is left in the queue and end. -/
def finish (e : Emulator) : Emulated :=
  let left := e.queue.pending
  ({ e with queue := { e.queue with pending := [] } }.applyAll left).andThen leave

/-! ### The loop -/

/-- Obey a command that was taken off the queue. -/
def obey (e : Emulator) (c : Command) : Emulated :=
  if c.isTerminate then e.finish else e.apply c

/-- One round of the loop. There is none while the emulator can only wait for a command. -/
def turn? (e : Emulator) : Option Emulated :=
  let (next, queue, clock) := match e.run with
    | .running => e.queue.poll e.clock
    | _ =>
        let (next, queue) := e.queue.take e.clock
        (next, queue, e.clock)
  let e := { e with queue := queue, clock := clock }
  match next with
  | .command c => some (e.obey c)
  | .resume => some e.cycle
  | .disconnected => some e.finish
  | .blocked => none

/-- Whether the next instruction is a jump to itself. -/
def isParked (e : Emulator) : Bool :=
  let w := e.machine.memory.word e.machine.pc
  Word.family w = 1 ∧ e.machine.offset (Word.nnn w) 0 = e.machine.pc

/-- Whether all is done: nothing happens any more without a command or a pulse. -/
def isAtRest (e : Emulator) : Bool :=
  e.finished ||
    (e.queue.pending.isEmpty && e.queue.connected &&
      match e.run with
      | .running =>
          !e.queue.wait.isEmpty ||
            (e.isParked && !e.skipBreakpoint && (e.breakpoints.enabledAt e.machine.pc).isNone)
      | _ => true)

/-- Run until `done`, at most `fuel` rounds; `events` are those so far, the latest first. -/
def runFrom (done : Emulator → Bool) (events : List Event) : Nat → Emulator → Emulated
  | 0, e => (e, events.reverse)
  | fuel + 1, e =>
      if done e then (e, events.reverse)
      else
        match e.turn? with
        | none => (e, events.reverse)
        | some (e, more) => runFrom done (more.reverse ++ events) fuel e

/-- Run until `done`, at most `fuel` rounds. -/
def runUntil (done : Emulator → Bool) (fuel : Nat) (e : Emulator) : Emulated :=
  runFrom done [] fuel e

/-- Run until all is done, at most `fuel` rounds. -/
def settle (fuel : Nat) (e : Emulator) : Emulated := e.runUntil isAtRest fuel

end Emulator

end Chip8
