import Chip8.Asm.SymbolTable

/-! # Naming in place

The operations on a symbol table once more, as they go on in a table that is there all the time.

* **Programs.** A `Naming` works on one table. Where it fails, the table is left as it is then, with
  all that was written before.
* **Histories.** An `Operation` is what can be asked of a table. Operations are performed one after
  the other, also behind one that failed (`SymbolTable.run`). -/

namespace Chip8.Asm

/-- Put a symbol into a table: in the place of the one of its name, or else behind all others. -/
def SymbolTable.insert (t : SymbolTable) (s : Symbol) : SymbolTable :=
  if (t.get? s.name).isSome then t.modify s.name fun _ => s else ⟨t.symbols ++ [s]⟩

/-- A program on a symbol table, which stays where the program fails. -/
abbrev Naming := EStateM SymbolError SymbolTable

namespace Naming

/-- Make a name known that has no value yet. -/
def declare (name : Identifier) (kind : SymbolKind) (span : Span) : Naming Unit := do
  match (← get).get? name with
  | some existing => throw (.duplicate name existing.span)
  | none => modify fun t => t.insert ⟨name, kind, span, none, false⟩

/-- Give a declared name its value. -/
def define (name : Identifier) (value : Int64) : Naming Unit := do
  match (← get).get? name with
  | none => throw (.undeclared name)
  | some existing =>
      if existing.value.isSome then throw (.redefined name)
      else modify fun t => t.modify name fun s => { s with value := some value }

def lookup (name : Identifier) : Naming Lookup := do
  return (← get).lookup name

/-- Note that an operand refers to a name. -/
def markUsed (name : Identifier) : Naming Unit :=
  modify fun t => t.markUsed name

end Naming

namespace SymbolTable

/-- What can be asked of a symbol table. -/
inductive Operation where
  | declare (name : Identifier) (kind : SymbolKind) (span : Span)
  | define (name : Identifier) (value : Int64)
  | lookup (name : Identifier)
  | markUsed (name : Identifier)
deriving DecidableEq

namespace Operation

/-- Do what is asked. Only a lookup has something to tell. -/
def act : Operation → Naming (Option Lookup)
  | declare name kind span => do
      Naming.declare name kind span
      return none
  | define name value => do
      Naming.define name value
      return none
  | lookup name => do
      return some (← Naming.lookup name)
  | markUsed name => do
      Naming.markUsed name
      return none

/-- What an operation tells, or why it was refused. -/
def answer (op : Operation) (t : SymbolTable) : Except SymbolError (Option Lookup) :=
  match op.act.run t with
  | .ok told _ => .ok told
  | .error e _ => .error e

/-- The table behind an operation, be it refused or not. -/
def apply (op : Operation) (t : SymbolTable) : SymbolTable :=
  match op.act.run t with
  | .ok _ t' => t'
  | .error _ t' => t'

end Operation

/-- The table behind a sequence of operations. -/
def run (t : SymbolTable) (ops : List Operation) : SymbolTable :=
  ops.foldl (fun t op => op.apply t) t

end SymbolTable

end Chip8.Asm
