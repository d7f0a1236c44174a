import Chip8.Asm.Identifier

/-! # Symbol table

The names that a program declares, in the order of their declarations.

* `declare` makes a name known, `define` gives it its value, once. Both leave the table as it is
  when they fail.
* `lookup` tells a name that is declared but has no value yet from one that is not known. -/

namespace Chip8.Asm

/-- What a symbol stands for. -/
inductive SymbolKind where
  | label
  | constant
deriving DecidableEq, Repr

/-- A declared name. -/
structure Symbol where
  name : Identifier
  kind : SymbolKind
  /-- The place of the declaration. -/
  span : Span
  value : Option Int64
  /-- Whether an operand refers to it. -/
  used : Bool
deriving DecidableEq

/-- What is known about a name. -/
inductive Lookup where
  | unknown
  | undefined
  | value (n : Int64)
deriving DecidableEq

/-- Why a declaration or definition is refused. -/
inductive SymbolError where
  | duplicate (name : Identifier) (previous : Span)
  | redefined (name : Identifier)
  | undeclared (name : Identifier)
deriving DecidableEq, Repr

def SymbolError.message : SymbolError → String
  | duplicate name _ => "`" ++ name.text ++ "` is already declared"
  | redefined name => "`" ++ name.text ++ "` is already defined"
  | undeclared name => "`" ++ name.text ++ "` was never declared"

/-- Declared names in the order of their declarations. -/
structure SymbolTable where
  symbols : List Symbol
deriving DecidableEq

namespace SymbolTable

def empty : SymbolTable := ⟨[]⟩

def size (t : SymbolTable) : Nat := t.symbols.length

def isEmpty (t : SymbolTable) : Bool := t.symbols.isEmpty

/-- The symbol of a name. -/
def get? (t : SymbolTable) (name : Identifier) : Option Symbol :=
  t.symbols.find? fun s => s.name = name

def lookup (t : SymbolTable) (name : Identifier) : Lookup :=
  match t.get? name with
  | none => .unknown
  | some s =>
      match s.value with
      | none => .undefined
      | some n => .value n

/-- Change the symbol of a name. -/
def modify (t : SymbolTable) (name : Identifier) (f : Symbol → Symbol) : SymbolTable :=
  ⟨t.symbols.map fun s => if s.name = name then f s else s⟩

/-- Make a name known that has no value yet. -/
def declare (t : SymbolTable) (name : Identifier) (kind : SymbolKind) (span : Span) :
    Except SymbolError SymbolTable :=
  match t.get? name with
  | some s => .error (.duplicate name s.span)
  | none => .ok ⟨t.symbols ++ [⟨name, kind, span, none, false⟩]⟩

/-- Give a declared name its value. -/
def define (t : SymbolTable) (name : Identifier) (value : Int64) :
    Except SymbolError SymbolTable :=
  match t.get? name with
  | none => .error (.undeclared name)
  | some s =>
      if s.value.isSome then .error (.redefined name)
      else .ok (t.modify name fun s => { s with value := some value })

/-- Note that an operand refers to a name. -/
def markUsed (t : SymbolTable) (name : Identifier) : SymbolTable :=
  t.modify name fun s => { s with used := true }

theorem get?_declare {t t' : SymbolTable} {name : Identifier} {kind : SymbolKind} {span : Span}
    (h : t.declare name kind span = .ok t') :
    t'.get? name = some ⟨name, kind, span, none, false⟩ := by
  unfold declare at h
  split at h
  · cases h
  · rename_i hnone
    cases h
    unfold get? at hnone ⊢
    simp [List.find?_append, hnone]

theorem size_markUsed (t : SymbolTable) (name : Identifier) : (t.markUsed name).size = t.size := by
  simp [markUsed, modify, size]

end SymbolTable

end Chip8.Asm
