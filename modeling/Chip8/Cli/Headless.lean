import Chip8.Cli.Invocation
import Chip8.Emulator.Call
import Chip8.Machine.Report

/-! # Headless runs

Running a program without a screen or keyboard until it stops or its time is over. Time is that of
the emulator's clock, which goes on with every instruction and every pulse that is waited for. -/

namespace Chip8.Cli

/-- What is run. -/
structure Job where
  machine : Config
  speed : Float32
  origin : UInt16
  bytes : List UInt8
  breakpoints : List Breakpoint
  /-- The time to run at most, in milliseconds. -/
  timeout : Option Nat
  /-- Whether every instruction is noted. -/
  traces : Bool

/-- How a run ended. -/
structure RunResult where
  machine : Machine
  /-- The last picture on the screen. -/
  frame : Frame
  /-- The change that ended the run, unless its time was over. -/
  change : Option StateChange
  notices : List Notice

/-- More rounds than a run takes that ends in reasonable time. -/
def maxRounds : Nat := 1000000000

namespace Job

private def submitAll (e : Emulator) (cs : List Command) : Emulator :=
  cs.foldl (fun e c => (e.submit c).1) e

/-- An emulator with the program loaded and about to start. -/
def prepare (job : Job) : Except Refusal (Emulator × List Event) := do
  let config := { EmulatorConfig.standard with machine := job.machine, speed := job.speed }
  let e := Emulator.new config ⟨true, job.traces, []⟩
  let ((e, loading), loaded) := e.loadNow .outside maxRounds job.origin job.bytes
  loaded
  let ((e, moving), moved) := e.ask .outside maxRounds fun m => (m.setPc job.origin, .ok 0)
  let _ ← moved
  let commands := job.breakpoints.map fun b => Command.changeBreakpoints (.add b true)
  return (submitAll e (commands ++ [.start]), loading ++ moving)

/-- Whether execution has stopped or its time is over. -/
def isOver (deadline : Option Nat) (e : Emulator) : Bool :=
  e.queue.pending.isEmpty &&
    (e.run ≠ .running || deadline.any (· ≤ e.clock))

private def frames (events : List Event) : List Frame :=
  events.filterMap fun
    | .frame f => some f
    | _ => none

private def notices (events : List Event) : List Notice :=
  events.filterMap fun
    | .notice n => some n
    | _ => none

private def stops (events : List Event) : List StateChange :=
  events.filterMap fun
    | .state c => if c.state = .stopped then some c else none
    | _ => none

/-- Run the program to its end. -/
def run (job : Job) : Except Refusal RunResult := do
  let (e, before) ← job.prepare
  let deadline := job.timeout.map fun ms => e.clock + 1000000 * ms
  let (e, during) := e.runUntil (isOver deadline) maxRounds
  let (e, stopping) := (e.submit .stop).1.runUntil (isOver none) maxRounds
  let (e, ending) := (e.submit .terminate).1.runUntil Emulator.finished maxRounds
  let events := before ++ during ++ stopping ++ ending
  return ⟨e.machine, (frames events).getLast?.getD e.machine.screen.frame,
    (stops during).head?, notices events⟩

end Job

end Chip8.Cli
