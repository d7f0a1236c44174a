/-! # Operators

The operators of expressions.

* `Operator.precedence` is the binding strength of the binary ones: an operator with a higher
  number binds tighter, and operators of one number group to the left.
* `Operator.family` says which values an operator takes. -/

namespace Chip8.Asm

/-- An operator of the expression language. -/
inductive Operator where
  | logicalOr
  | logicalAnd
  | eq
  | ne
  | lt
  | le
  | gt
  | ge
  | bitOr
  | bitXor
  | bitAnd
  | shl
  | shr
  | add
  | sub
  | mul
  | div
  | rem
  /-- The sign in front of an operand. -/
  | neg
  /-- The complement of all bits. -/
  | complement
  /-- The negation of a truth value. -/
  | not
deriving DecidableEq, Repr

/-- The values that an operator takes. -/
inductive Family where
  | number
  | boolean
  /-- Two operands of one kind. -/
  | either
deriving DecidableEq, Repr

namespace Operator

/-- Binding strength of a binary operator. -/
def precedence : Operator → Option Nat
  | logicalOr => some 1
  | logicalAnd => some 2
  | eq | ne => some 3
  | lt | le | gt | ge => some 4
  | bitOr => some 5
  | bitXor => some 6
  | bitAnd => some 7
  | shl | shr => some 8
  | add | sub => some 9
  | mul | div | rem => some 10
  | neg | complement | not => none

/-- The number of operands. -/
def arity : Operator → Nat
  | neg | complement | not => 1
  | _ => 2

def family : Operator → Family
  | logicalOr | logicalAnd | not => .boolean
  | eq | ne => .either
  | _ => .number

/-- The spelling; the sign and the subtraction share one. -/
def symbol : Operator → List Char
  | logicalOr => ['|', '|']
  | logicalAnd => ['&', '&']
  | eq => ['=', '=']
  | ne => ['!', '=']
  | lt => ['<']
  | le => ['<', '=']
  | gt => ['>']
  | ge => ['>', '=']
  | bitOr => ['|']
  | bitXor => ['^']
  | bitAnd => ['&']
  | shl => ['<', '<']
  | shr => ['>', '>']
  | add => ['+']
  | sub | neg => ['-']
  | mul => ['*']
  | div => ['/']
  | rem => ['%']
  | complement => ['~']
  | not => ['!']

def text (op : Operator) : String := String.ofList op.symbol

/-- The prefix operator that a token of the given operator stands for in front of an operand. -/
def asPrefix : Operator → Option Operator
  | sub => some neg
  | complement => some complement
  | not => some not
  | _ => none

/-- The binary operators are those with a precedence. -/
theorem precedence_isSome (op : Operator) : op.precedence.isSome = (op.arity == 2) := by
  cases op <;> rfl

end Operator

end Chip8.Asm
