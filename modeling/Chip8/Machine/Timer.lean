/-! # Timer

A byte that counts down to zero, one for each pulse, and stays there. -/

namespace Chip8

/-- A countdown. -/
structure Timer where
  value : UInt8
deriving DecidableEq, Repr

/-- The number of pulses in a second. -/
def pulsesPerSecond : Nat := 60

namespace Timer

/-- A timer that has run out. -/
def idle : Timer := ⟨0⟩

def isActive (t : Timer) : Bool := t.value > 0

/-- Count down once; tells whether this pulse brought the timer to zero. -/
def pulse (t : Timer) : Timer × Bool :=
  if t.value = 0 then (t, false) else (⟨t.value - 1⟩, t.value - 1 = 0)

/-- A pulse takes one off the value unless the timer has run out. -/
theorem pulse_value (t : Timer) : (t.pulse.1).value.toNat = t.value.toNat - 1 := by
  unfold pulse
  split
  · next h => simp [h]
  · next h =>
      have hpos : t.value.toNat ≠ 0 := fun e => h (UInt8.toNat_inj.mp e)
      have hle : (1 : UInt8) ≤ t.value := by
        rw [UInt8.le_iff_toNat_le]
        show 1 ≤ t.value.toNat
        omega
      rw [UInt8.toNat_sub_of_le _ _ hle]
      rfl

end Timer

end Chip8
