import Chip8.Asm.Program
import Chip8.Emulator.Breakpoints

/-! # Breakpoint targets

The places where a user asks a program to stop: an address, or the name of a label or constant of the
program. Names stand for their values modulo 16 bits. -/

namespace Chip8.Cli

/-- Why a target is no breakpoint. -/
inductive TargetError where
  | tooLarge (target : String)
  | noSource (target : String)
  | unknownLabel (target : String)
deriving DecidableEq, Repr

def TargetError.message : TargetError → String
  | tooLarge target => "Breakpoint address '" ++ target ++ "' does not fit 16 bits"
  | noSource target => "Cannot resolve label '" ++ target ++ "' without assembly source"
  | unknownLabel target => "Unknown label '" ++ target ++ "'"

/-- The value of a name in a table. -/
def valueOf? (symbols : Asm.SymbolTable) (name : List Char) : Option Int64 :=
  (Asm.Identifier.ofChars? name).bind fun i => (symbols.get? i).bind Asm.Symbol.value

/-- The breakpoint that a target asks for. -/
def resolveTarget (program : Option Asm.Program) (target : String) :
    Except TargetError Breakpoint :=
  match Numeral.ofUser? target.toList with
  | some n => if n < 0x10000 then .ok ⟨n.toUInt16, false⟩ else .error (.tooLarge target)
  | none =>
      match program with
      | none => .error (.noSource target)
      | some p =>
          match valueOf? p.symbols target.toList with
          | some value => .ok ⟨UInt16.ofInt value.toInt, false⟩
          | none => .error (.unknownLabel target)

/-- Every breakpoint that a target asks for stays when it is reached. -/
theorem temporary_of_resolveTarget {program : Option Asm.Program} {target : String}
    {b : Breakpoint} (h : resolveTarget program target = .ok b) : b.temporary = false := by
  unfold resolveTarget at h
  split at h
  · split at h
    · cases h
      rfl
    · cases h
  · split at h
    · cases h
    · split at h
      · cases h
        rfl
      · cases h

end Chip8.Cli
