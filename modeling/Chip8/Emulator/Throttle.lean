/-! # Throttle

How fast a running machine goes, from 0 (slowest) to 1 (fastest). Speed is a 32-bit floating-point
number, and so is the arithmetic. -/

namespace Chip8

/-- The pace of a running machine. -/
structure Throttle where
  /-- How often the idle loop behind every tick is run. -/
  delayIterations : Nat
  /-- Ticks from one notification to the next. -/
  notifyInterval : Nat
deriving DecidableEq, Repr

namespace Throttle

/-- The pace for a speed. A speed outside of the range counts as the nearest one in it, and one that
is no number counts as the fastest. -/
def ofSpeed (speed : Float32) : Throttle :=
  let speed : Float32 :=
    if speed.isNaN then 1 else if speed < 0 then 0 else if 1 < speed then 1 else speed
  let slowness := 1 - speed
  ⟨(slowness * slowness * 400000).toUInt32.toNat, 1 + (speed * 1999).toUInt32.toNat⟩

/-- A notification is due after some ticks at any speed. -/
theorem notifyInterval_pos (speed : Float32) : 0 < (ofSpeed speed).notifyInterval := by
  simp only [ofSpeed]
  omega

/-- How long a tick takes, in nanoseconds. -/
def tickTime (t : Throttle) : Nat := 1000 + 10 * t.delayIterations

end Throttle

end Chip8
