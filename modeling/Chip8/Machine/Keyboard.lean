import Chip8.Machine.Word

/-! # Keyboard

The sixteen keys of the machine and which of them are held down. Key codes are bytes; only their
low four bits count. -/

namespace Chip8

/-- One of the sixteen keys. -/
abbrev Key := Fin 16

/-- The key of a code. -/
def Key.ofCode (code : UInt8) : Key := lowNibble code

/-- Which keys are held down. -/
structure Keyboard where
  held : Vector Bool 16
deriving DecidableEq, Repr

namespace Keyboard

/-- No key is held down. -/
def released : Keyboard := ⟨Vector.replicate 16 false⟩

def press (k : Keyboard) (code : UInt8) : Keyboard :=
  let key := Key.ofCode code
  ⟨k.held.set key true key.isLt⟩

def release (k : Keyboard) (code : UInt8) : Keyboard :=
  let key := Key.ofCode code
  ⟨k.held.set key false key.isLt⟩

def isPressed (k : Keyboard) (code : UInt8) : Bool := k.held[Key.ofCode code]

/-- The keys that are held down, in ascending order. -/
def pressed (k : Keyboard) : List Key := (List.finRange 16).filter fun key => k.held[key]

theorem isPressed_press (k : Keyboard) (a b : UInt8) :
    (k.press a).isPressed b = (decide (Key.ofCode a = Key.ofCode b) || k.isPressed b) := by
  by_cases h : Key.ofCode a = Key.ofCode b
  · simp [isPressed, press, h]
  · have hne : (Key.ofCode a).val ≠ (Key.ofCode b).val := fun e => h (Fin.ext e)
    simp [isPressed, press, h, Vector.getElem_set_ne _ _ hne]

end Keyboard

end Chip8
