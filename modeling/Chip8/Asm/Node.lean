import Chip8.Asm.Identifier
import Chip8.Asm.Operator
import Chip8.Text.Numeral

/-! # Operands and expressions

The tree of an operand. Expressions are the trees of numbers, names and operators; registers and
keywords are operands as a whole.

* `Node.chars` writes a tree with every binary operator in parentheses, so that the text can be
  read in one way only.
* `Node.identifiers` lists the names in a tree from left to right. -/

namespace Chip8.Asm

/-- An operand or a part of an expression, and its place. -/
inductive Node where
  | number (value : Int64) (span : Span)
  | register (number : UInt8) (span : Span)
  | keyword (word : Keyword) (span : Span)
  | name (id : Identifier) (span : Span)
  | apply (op : Operator) (operands : List Node) (span : Span)
deriving Repr

namespace Node

def span : Node → Span
  | number _ s | register _ s | keyword _ s | name _ s | apply _ _ s => s

/-- The same tree at another place. -/
def withSpan (place : Span) : Node → Node
  | number v _ => number v place
  | register r _ => register r place
  | keyword k _ => keyword k place
  | name i _ => name i place
  | apply op ns _ => apply op ns place

/-- Whether the tree can have a value, unlike a register or keyword. -/
def isExpression : Node → Bool
  | number .. | name .. | apply .. => true
  | register .. | keyword .. => false

/-- The decimal digits of a number after its sign. -/
def integerChars (n : Int) : List Char :=
  if n < 0 then '-' :: Numeral.digits 10 n.natAbs else Numeral.digits 10 n.natAbs

/-- Put an operator to its operands. One that has neither one nor two is not written out. -/
def applied (op : Operator) : List (List Char) → List Char
  | [a] => op.symbol ++ a
  | [a, b] => ['('] ++ a ++ [' '] ++ op.symbol ++ [' '] ++ b ++ [')']
  | _ => op.symbol ++ ['(', '.', '.', ')']

mutual

/-- The text of a tree. -/
def chars : Node → List Char
  | number v _ => integerChars v.toInt
  | register r _ => 'V' :: (Numeral.digits 16 r.toNat).map Char.toUpper
  | keyword k _ => k.chars
  | name i _ => i.chars
  | apply op ns _ => applied op (charsOfAll ns)

def charsOfAll : List Node → List (List Char)
  | [] => []
  | n :: ns => n.chars :: charsOfAll ns

end

def text (n : Node) : String := String.ofList n.chars

mutual

/-- The names in a tree from left to right. -/
def identifiers : Node → List (Identifier × Span)
  | name i s => [(i, s)]
  | apply _ ns _ => identifiersOfAll ns
  | number .. | register .. | keyword .. => []

def identifiersOfAll : List Node → List (Identifier × Span)
  | [] => []
  | n :: ns => n.identifiers ++ identifiersOfAll ns

end

theorem charsOfAll_eq_map (ns : List Node) : charsOfAll ns = ns.map chars := by
  induction ns with
  | nil => rfl
  | cons n ns ih => simp [charsOfAll, ih]

theorem identifiersOfAll_eq_flatMap (ns : List Node) :
    identifiersOfAll ns = ns.flatMap identifiers := by
  induction ns with
  | nil => rfl
  | cons n ns ih => simp [identifiersOfAll, ih]

@[simp] theorem span_withSpan (n : Node) (place : Span) : (n.withSpan place).span = place := by
  cases n <;> rfl

@[simp] theorem chars_withSpan (n : Node) (place : Span) : (n.withSpan place).chars = n.chars := by
  cases n <;> simp [withSpan, chars]

end Node

end Chip8.Asm
