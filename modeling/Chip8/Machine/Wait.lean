/-! # Wait flags

The events that a machine is suspended on. No instruction is executed while any flag is set. -/

namespace Chip8

/-- A set of awaited events. -/
structure WaitFlags where
  /-- The delay timer has to run out. -/
  delay : Bool
  /-- Some key has to be pressed. -/
  keyPress : Bool
  /-- The key that ended a wait for a press has to be released. -/
  keyRelease : Bool
deriving DecidableEq, Repr

namespace WaitFlags

/-- Nothing is awaited. -/
def none : WaitFlags := ⟨false, false, false⟩

def isEmpty (w : WaitFlags) : Bool := !(w.delay || w.keyPress || w.keyRelease)

/-- The events of both sets. -/
def insert (w v : WaitFlags) : WaitFlags :=
  ⟨w.delay || v.delay, w.keyPress || v.keyPress, w.keyRelease || v.keyRelease⟩

/-- The events of `w` that are not in `v`. -/
def remove (w v : WaitFlags) : WaitFlags :=
  ⟨w.delay && !v.delay, w.keyPress && !v.keyPress, w.keyRelease && !v.keyRelease⟩

/-- Whether `v` has an event and all its events are in `w`. -/
def contains (w v : WaitFlags) : Bool :=
  (!v.delay || w.delay) && (!v.keyPress || w.keyPress) && (!v.keyRelease || w.keyRelease) &&
    !v.isEmpty

theorem isEmpty_iff {w : WaitFlags} : w.isEmpty = true ↔ w = none := by
  cases w with
  | mk a b c => cases a <;> cases b <;> cases c <;> decide

end WaitFlags

end Chip8
