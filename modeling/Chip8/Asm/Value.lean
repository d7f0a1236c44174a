import Chip8.Asm.Node
import Chip8.Asm.SymbolTable

/-! # Values of expressions

Numbers are 64-bit words in two's complement whose arithmetic wraps around; division truncates.

* `Node.evaluate` values a tree. A name that is declared but has no value yet makes the whole
  undefined and is no error.
* `Node.numberIn` demands a number; `Node.tryNumberIn` lets it be undefined.
* Of several errors in a tree the leftmost innermost one counts. -/

namespace Chip8.Asm

/-- The value of an expression. -/
inductive Value where
  | number (n : Int64)
  | boolean (b : Bool)
  /-- Depends on a name that has no value yet. -/
  | undefined
deriving DecidableEq

/-- The kind of a value; an undefined one has none yet. -/
def Value.family? : Value → Option Family
  | number _ => some .number
  | boolean _ => some .boolean
  | undefined => none

/-- Why an expression has no value. -/
inductive EvalError where
  | unknown (name : Identifier) (span : Span)
  | undefined (name : Identifier) (span : Span)
  | mismatch (op : Operator) (span : Span)
  | arity (op : Operator) (found : Nat) (span : Span)
  | notNumber (span : Span)
  | register (span : Span)
  | keyword (span : Span)
  | undefinedValue (span : Span)
  | divisionByZero (span : Span)
  | shiftRange (amount : Int64) (span : Span)
deriving DecidableEq

/-- How messages call the values of a family. -/
def Family.adjective : Family → String
  | number => "numeric"
  | boolean => "boolean"
  | either => "matching"

namespace EvalError

def span : EvalError → Span
  | unknown _ s | undefined _ s | mismatch _ s | arity _ _ s | notNumber s | register s | keyword s
  | undefinedValue s | divisionByZero s | shiftRange _ s => s

def message : EvalError → String
  | unknown name _ => "unknown symbol `" ++ name.text ++ "`"
  | undefined name _ => "`" ++ name.text ++ "` has no value at this point"
  | mismatch op _ => "operator `" ++ op.text ++ "` expects " ++ op.family.adjective ++ " operands"
  | arity op found _ =>
      "operator `" ++ op.text ++ "` takes " ++ Numeral.decimal op.arity ++ " operands, found " ++
        Numeral.decimal found
  | notNumber _ => "expected a number, found a boolean"
  | register _ => "a register is not allowed in an expression"
  | keyword _ => "a keyword is not allowed in an expression"
  | undefinedValue _ => "an undefined value is not allowed in an expression"
  | divisionByZero _ => "division by zero"
  | shiftRange amount _ => "shift amount " ++ Numeral.signed amount.toInt ++ " is out of range"

end EvalError

namespace Operator

/-- Whether an operator takes values of these kinds. -/
def accepts (op : Operator) (families : List Family) : Bool :=
  match op.family with
  | .either =>
      match families with
      | a :: rest => rest.all (· = a)
      | [] => true
  | family => families.all (· = family)

/-- Apply an operator to a number. -/
def onNumber? (op : Operator) (a : Int64) : Option Value :=
  match op with
  | neg => some (.number (-a))
  | complement => some (.number (~~~a))
  | _ => none

/-- Apply an operator to two numbers at `span`. -/
def onNumbers? (op : Operator) (a b : Int64) (span : Span) : Option (Except EvalError Value) :=
  let shifted (n : Int64) : Except EvalError Value :=
    if 0 ≤ b ∧ b < 64 then .ok (.number n) else .error (.shiftRange b span)
  let divided (n : Int64) : Except EvalError Value :=
    if b = 0 then .error (.divisionByZero span) else .ok (.number n)
  match op with
  | eq => some (.ok (.boolean (a = b)))
  | ne => some (.ok (.boolean (a ≠ b)))
  | lt => some (.ok (.boolean (a < b)))
  | le => some (.ok (.boolean (a ≤ b)))
  | gt => some (.ok (.boolean (b < a)))
  | ge => some (.ok (.boolean (b ≤ a)))
  | bitOr => some (.ok (.number (a ||| b)))
  | bitXor => some (.ok (.number (a ^^^ b)))
  | bitAnd => some (.ok (.number (a &&& b)))
  | shl => some (shifted (a <<< b))
  | shr => some (shifted (a >>> b))
  | add => some (.ok (.number (a + b)))
  | sub => some (.ok (.number (a - b)))
  | mul => some (.ok (.number (a * b)))
  | div => some (divided (a / b))
  | rem => some (divided (a % b))
  | _ => none

/-- Apply an operator to two truth values. -/
def onBooleans? (op : Operator) (a b : Bool) : Option Value :=
  match op with
  | logicalOr => some (.boolean (a || b))
  | logicalAnd => some (.boolean (a && b))
  | eq => some (.boolean (a = b))
  | ne => some (.boolean (a ≠ b))
  | _ => none

/-- Apply an operator to defined values. There is an answer for every number and kind of values
that the operator takes. -/
def applied? (op : Operator) (span : Span) : List Value → Option (Except EvalError Value)
  | [.number a] => (op.onNumber? a).map .ok
  | [.boolean a] => if op = not then some (.ok (.boolean !a)) else none
  | [.number a, .number b] => op.onNumbers? a b span
  | [.boolean a, .boolean b] => (op.onBooleans? a b).map .ok
  | _ => none

/-- The value of an operator applied to values. -/
def apply (op : Operator) (span : Span) (values : List Value) : Except EvalError Value :=
  if op.accepts (values.filterMap Value.family?) then
    if values.contains .undefined then .ok .undefined
    else (op.applied? span values).getD (.ok .undefined)
  else .error (.mismatch op span)

end Operator

namespace Node

mutual

/-- The value of a tree. -/
def evaluate (symbols : SymbolTable) : Node → Except EvalError Value
  | number n _ => .ok (.number n)
  | register _ s => .error (.register s)
  | keyword _ s => .error (.keyword s)
  | name i s =>
      match symbols.lookup i with
      | .value n => .ok (.number n)
      | .undefined => .ok .undefined
      | .unknown => .error (.unknown i s)
  | apply op operands s =>
      if operands.length = op.arity then
        match evaluateAll symbols operands with
        | .ok values => op.apply s values
        | .error e => .error e
      else .error (.arity op operands.length s)

/-- The values of trees from left to right. -/
def evaluateAll (symbols : SymbolTable) : List Node → Except EvalError (List Value)
  | [] => .ok []
  | n :: ns =>
      match n.evaluate symbols with
      | .error e => .error e
      | .ok v =>
          match evaluateAll symbols ns with
          | .error e => .error e
          | .ok vs => .ok (v :: vs)

end

/-- The number that a tree stands for, or `none` as long as it is undefined. -/
def tryNumberIn (symbols : SymbolTable) (n : Node) : Except EvalError (Option Int64) :=
  match n.evaluate symbols with
  | .ok (.number v) => .ok (some v)
  | .ok (.boolean _) => .error (.notNumber n.span)
  | .ok .undefined => .ok none
  | .error e => .error e

/-- The error that names the first name in a tree that has no value. -/
def firstUndefined (symbols : SymbolTable) (n : Node) : EvalError :=
  match n.identifiers.find? fun (i, _) => symbols.lookup i = .undefined with
  | some (i, s) => .undefined i s
  | none => .undefinedValue n.span

/-- The number that a tree stands for. -/
def numberIn (symbols : SymbolTable) (n : Node) : Except EvalError Int64 :=
  match n.evaluate symbols with
  | .ok (.number v) => .ok v
  | .ok (.boolean _) => .error (.notNumber n.span)
  | .ok .undefined => .error (n.firstUndefined symbols)
  | .error e => .error e

end Node

end Chip8.Asm
