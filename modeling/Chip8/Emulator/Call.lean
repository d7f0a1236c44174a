import Chip8.Emulator.Run

/-! # Calls

How others use an emulator. A command is submitted and obeyed later; a call waits for the answer and
is refused to a task, which would wait for itself. -/

namespace Chip8

/-- Who calls. -/
inductive Caller where
  | outside
  /-- A task that the emulator is running. -/
  | task
deriving DecidableEq, Repr

namespace Emulator

/-- Submit a command. -/
def submit (e : Emulator) (c : Command) : Emulator × Except Refusal Unit :=
  let (queue, result) := e.queue.submit c
  ({ e with queue := queue }, result)

/-- Submit a command, wait until all is done, and look for the answer among the events. -/
def call {α : Type} (caller : Caller) (fuel : Nat) (answer? : Event → Option α) (c : Command)
    (e : Emulator) : Emulated × Except Refusal α :=
  match caller with
  | .task => ((e, []), .error .wouldBlock)
  | .outside =>
      match e.submit c with
      | (e, .error refusal) => ((e, []), .error refusal)
      | (e, .ok ()) =>
          let (e, events) := e.settle fuel
          ((e, events),
            match events.findSome? answer? with
            | some a => .ok a
            | none => .error .disconnected)

/-- Run a task and wait for its answer. -/
def ask (caller : Caller) (fuel : Nat) (task : Task) (e : Emulator) :
    Emulated × Except Refusal UInt16 :=
  let answer? : Event → Option (Except String UInt16)
    | .answered result => some result
    | _ => none
  let (done, result) := e.call caller fuel answer? (.run task)
  (done,
    match result with
    | .ok (.ok value) => .ok value
    | .ok (.error _) => .error .taskFailed
    | .error refusal => .error refusal)

/-- Load a binary and wait until that is done. -/
def loadNow (caller : Caller) (fuel : Nat) (address : UInt16) (bytes : List UInt8)
    (e : Emulator) : Emulated × Except Refusal Unit :=
  let answer? : Event → Option (Except LoadError Unit)
    | .loaded result => some result
    | _ => none
  let (done, result) := e.call caller fuel answer? (.load address bytes)
  (done,
    match result with
    | .ok (.ok ()) => .ok ()
    | .ok (.error err) => .error (.load err)
    | .error refusal => .error refusal)

/-- Load all that a source yields, unless it fails. -/
def loadFrom (caller : Caller) (fuel : Nat) (address : UInt16) (source : ByteSource)
    (e : Emulator) : Emulated × Except Refusal Unit :=
  match source.drain with
  | .ok bytes => e.loadNow caller fuel address bytes
  | .error err => ((e, []), .error (.load err))

/-- Have a hook called at the end. -/
def register (e : Emulator) (hook : Hook) : Emulator := { e with hooks := e.hooks ++ [hook] }

/-- All callers go away. -/
def disconnect (e : Emulator) : Emulator := { e with queue := e.queue.disconnect }

end Emulator

end Chip8
