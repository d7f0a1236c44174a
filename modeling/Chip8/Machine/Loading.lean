import Chip8.Machine.Memory

/-! # Loading in place

Loading once more, as it goes on in a memory that is there all the time.

* **Reading.** A `Reader` gives its bytes in pieces. It is asked for more until it ends or fails, and
  `Reader.stream` is all that it gives.
* **Loading.** A `Loading` works on one memory. Where it fails, the memory is left as it is then, with
  all that was written before. -/

namespace Chip8

/-- What a reader gives when it is asked for more. -/
inductive Piece where
  /-- Some bytes; none at all mean the end. -/
  | bytes (bs : List UInt8)
  /-- Nothing this time. -/
  | interrupted
  | failed (reason : String)
deriving DecidableEq, Repr

/-- A source of bytes, by what it gives each time that it is asked. Behind the last piece it ends. -/
abbrev Reader := List Piece

namespace Reader

/-- All that a reader gives until it ends or fails. -/
def stream : Reader → ByteSource
  | [] => ⟨[], none⟩
  | .bytes bs :: r => if bs.isEmpty then ⟨[], none⟩ else ⟨bs ++ (stream r).bytes, (stream r).failure⟩
  | .interrupted :: r => stream r
  | .failed reason :: _ => ⟨[], some reason⟩

/-- Read to the end, `buffer` being what was read before. -/
def readOn (buffer : List UInt8) : Reader → Except LoadError (List UInt8)
  | [] => .ok buffer
  | .bytes bs :: r => if bs.isEmpty then .ok buffer else readOn (buffer ++ bs) r
  | .interrupted :: r => readOn buffer r
  | .failed reason :: _ => .error (.unreadable reason)

end Reader

/-- A program on a memory, which stays where the program fails. -/
abbrev Loading := EStateM LoadError Memory

namespace Loading

/-- Write bytes to consecutive addresses. -/
def store (a : Nat) : List UInt8 → Loading Unit
  | [] => pure ()
  | b :: bs => do
      modify fun m => m.setByte a b
      store (a + 1) bs

/-- Load a binary at an address. -/
def load (a : UInt16) (bytes : List UInt8) : Loading Unit := do
  let capacity := (← get).size
  if capacity < bytes.length then throw (.tooLarge bytes.length capacity)
  else store a.toNat bytes

/-- Load all that a reader gives at an address. -/
def loadFrom (a : UInt16) (r : Reader) : Loading Unit :=
  match Reader.readOn [] r with
  | .ok bytes => load a bytes
  | .error e => throw e

end Loading

end Chip8
