/-! # Breakpoints

Addresses where execution pauses. A breakpoint is temporary or persistent, and the two kinds at one
address are different breakpoints; each can be disabled without being forgotten.

The entries are kept in the order of addresses, and at one address the persistent breakpoint comes
first. -/

namespace Chip8

/-- A place where execution pauses. -/
structure Breakpoint where
  address : UInt16
  temporary : Bool
deriving DecidableEq, Repr

namespace Breakpoint

/-- The order of breakpoints. -/
def key (b : Breakpoint) : Nat := 2 * b.address.toNat + if b.temporary then 1 else 0

theorem key_injective {a b : Breakpoint} (h : a.key = b.key) : a = b := by
  obtain ⟨a, s⟩ := a
  obtain ⟨b, t⟩ := b
  simp only [key] at h
  have hst : s = t := by
    cases s <;> cases t <;> simp at h ⊢ <;> omega
  subst hst
  have : a.toNat = b.toNat := by omega
  rw [UInt16.toNat_inj.mp this]

end Breakpoint

/-- What is known about a breakpoint. -/
inductive BreakpointState where
  | enabled
  | disabled
  | unknown
deriving DecidableEq, Repr

/-- Breakpoints and whether they are enabled. -/
structure Breakpoints where
  entries : List (Breakpoint × Bool)
deriving DecidableEq, Repr

namespace Breakpoints

def none : Breakpoints := ⟨[]⟩

def size (bs : Breakpoints) : Nat := bs.entries.length

def isEmpty (bs : Breakpoints) : Bool := bs.entries.isEmpty

/-- Put an entry in its place; one of the same breakpoint is replaced. -/
def insertEntry (b : Breakpoint) (enabled : Bool) :
    List (Breakpoint × Bool) → List (Breakpoint × Bool)
  | [] => [(b, enabled)]
  | (a, on) :: rest =>
      if a = b then (b, enabled) :: rest
      else if b.key < a.key then (b, enabled) :: (a, on) :: rest
      else (a, on) :: insertEntry b enabled rest

/-- Add a breakpoint or replace it. -/
def add (bs : Breakpoints) (b : Breakpoint) (enabled : Bool) : Breakpoints :=
  ⟨insertEntry b enabled bs.entries⟩

/-- Whether a breakpoint is enabled, if it is there. -/
def get? (bs : Breakpoints) (b : Breakpoint) : Option Bool :=
  (bs.entries.find? fun (a, _) => a = b).map Prod.snd

def state (bs : Breakpoints) (b : Breakpoint) : BreakpointState :=
  match bs.get? b with
  | some true => .enabled
  | some false => .disabled
  | .none => .unknown

def contains (bs : Breakpoints) (b : Breakpoint) : Bool := (bs.get? b).isSome

/-- Forget a breakpoint. -/
def remove (bs : Breakpoints) (b : Breakpoint) : Breakpoints :=
  ⟨bs.entries.filter fun (a, _) => a ≠ b⟩

/-- Enable or disable a breakpoint that is there. -/
def setEnabled (bs : Breakpoints) (b : Breakpoint) (enabled : Bool) : Breakpoints :=
  ⟨bs.entries.map fun (a, on) => (a, if a = b then enabled else on)⟩

/-- The enabled breakpoint at an address, the temporary one if both are. -/
def enabledAt (bs : Breakpoints) (address : UInt16) : Option Breakpoint :=
  [⟨address, true⟩, ⟨address, false⟩].find? fun b => bs.state b = .enabled

/-- Forget all temporary breakpoints. -/
def clearTemporary (bs : Breakpoints) : Breakpoints :=
  ⟨bs.entries.filter fun (b, _) => ¬ b.temporary⟩

def hasTemporary (bs : Breakpoints) : Bool := bs.entries.any fun (b, _) => b.temporary

theorem address_of_enabledAt {bs : Breakpoints} {address : UInt16} {b : Breakpoint}
    (h : bs.enabledAt address = some b) : b.address = address := by
  have hmem := List.mem_of_find?_eq_some h
  simp only [List.mem_cons, List.not_mem_nil, or_false] at hmem
  rcases hmem with rfl | rfl <;> rfl

theorem state_of_enabledAt {bs : Breakpoints} {address : UInt16} {b : Breakpoint}
    (h : bs.enabledAt address = some b) : bs.state b = .enabled := by
  simpa using List.find?_some h

end Breakpoints

end Chip8
