import Chip8.Asm.Diagnostic

/-! # Reading expressions

Expressions are read from left to right with a stack of what is still open: prefix operators,
parentheses, and binary operators that wait for their right operand.

* A binary operator closes all open ones that bind at least as tightly, so that operators of one
  strength group to the left. Prefix operators bind tighter than all binary ones.
* Reading stops at the first token that cannot go on with the expression. `Tokens.stop` is the
  token behind the last one, which is found where the expression is incomplete. -/

namespace Chip8.Asm

/-- The names of registers, the latest first. -/
abbrev Aliases := List (Identifier × UInt8)

/-- The register that a name stands for. -/
def Aliases.get? (aliases : Aliases) (name : Identifier) : Option UInt8 :=
  (aliases.find? fun (i, _) => i = name).map Prod.snd

/-- What is still open in front of an operand. -/
inductive Frame where
  | prefixed (op : Operator) (span : Span)
  | paren (span : Span)
  | binary (op : Operator) (left : Node)

namespace Frame

/-- Apply the prefix operators in front of a complete operand. -/
def settle : List Frame → Node → List Frame × Node
  | prefixed op s :: frames, n => settle frames (.apply op [n] (s.join n.span))
  | frames, n => (frames, n)

/-- Apply the open binary operators that bind at least as tightly as `strength`. -/
def close (strength : Nat) : List Frame → Node → List Frame × Node
  | binary op left :: frames, n =>
      if op.precedence.any (strength ≤ ·) then
        close strength frames (.apply op [left, n] (left.span.join n.span))
      else (binary op left :: frames, n)
  | frames, n => (frames, n)

end Frame

/-- The value of a number as it is written. -/
def numberOf (base : Base) (t : Token) : Except Diagnostic Int64 :=
  match Numeral.read base.radix 0x7FFFFFFFFFFFFFFF (t.chars.drop base.markLength) with
  | .ok n => .ok (Int64.ofNat n)
  | .error fault => .error ⟨.badNumber t.chars fault, t.span⟩

/-- The name that a token spells. -/
def identifierOf (t : Token) : Except Diagnostic Identifier :=
  match Identifier.ofChars? t.chars with
  | some i => .ok i
  | none => .error ⟨.invalidName t.chars, t.span⟩

/-- A name within an expression, where aliases are not allowed. -/
def nameOf (aliases : Aliases) (t : Token) : Except Diagnostic Node :=
  match identifierOf t with
  | .error d => .error d
  | .ok i =>
      if (aliases.get? i).isSome then .error ⟨.aliasInExpression i, t.span⟩
      else .ok (.name i t.span)

/-- What a token starts where an operand is due: an operand, or something open in front of one. -/
def operandStart (aliases : Aliases) (t : Token) : Except Diagnostic (Frame ⊕ Node) :=
  let unexpected := Diagnostic.unexpected t "an operand"
  match t.kind with
  | .number base => (numberOf base t).map fun n => .inr (.number n t.span)
  | .name => (nameOf aliases t).map .inr
  | .parenOpen => .ok (.inl (.paren t.span))
  | .register _ => .error ⟨.registerInExpression, t.span⟩
  | .operator op =>
      match op.asPrefix with
      | some op => .ok (.inl (.prefixed op t.span))
      | none => .error unexpected
  | _ => .error unexpected

/-- What a token does behind a complete operand. -/
inductive Continuation where
  /-- A binary operator: an operand is due next. -/
  | operand (frames : List Frame)
  /-- A parenthesis is closed: the operand goes on. -/
  | operator (frames : List Frame) (n : Node)
  /-- The token does not belong to the expression. -/
  | done (n : Node)
  | unclosed

/-- The expression ends, or a parenthesis is left open. -/
def finish (frames : List Frame) (n : Node) : Continuation :=
  match Frame.close 0 frames n with
  | ([], n) => .done n
  | _ => .unclosed

/-- Go on behind the operand `n` with a token. -/
def continueWith (frames : List Frame) (n : Node) (t : Token) : Continuation :=
  match t.kind with
  | .operator op =>
      match op.precedence with
      | some strength =>
          let (frames, n) := Frame.close strength frames n
          .operand (.binary op n :: frames)
      | none => finish frames n
  | .parenClose =>
      match Frame.close 0 frames n with
      | (.paren s :: frames, n) =>
          let (frames, n) := Frame.settle frames (n.withSpan (s.join t.span))
          .operator frames n
      | (_, n) => .done n
  | _ => finish frames n

/-- Read on with an expression: `operand` is the one just read, if an operator may follow. The
answer is the tree and the tokens behind it. -/
def readFrom (aliases : Aliases) (stop : Token) (frames : List Frame) (operand : Option Node) :
    List Token → Except Diagnostic (Node × List Token)
  | [] =>
      match operand with
      | none => .error (.unexpected stop "an operand")
      | some n =>
          match finish frames n with
          | .done n => .ok (n, [])
          | _ => .error (.unexpected stop "`)`")
  | t :: ts =>
      match operand with
      | none =>
          match operandStart aliases t with
          | .error d => .error d
          | .ok (.inl frame) => readFrom aliases stop (frame :: frames) none ts
          | .ok (.inr n) =>
              let (frames, n) := Frame.settle frames n
              readFrom aliases stop frames (some n) ts
      | some n =>
          match continueWith frames n t with
          | .operand frames => readFrom aliases stop frames none ts
          | .operator frames n => readFrom aliases stop frames (some n) ts
          | .done n => .ok (n, t :: ts)
          | .unclosed => .error (.unexpected t "`)`")

/-- Read an expression. -/
def readExpression (aliases : Aliases) (stop : Token) (ts : List Token) :
    Except Diagnostic (Node × List Token) :=
  readFrom aliases stop [] none ts

/-- Closing keeps no binary operator on top that binds at least as tightly. -/
theorem Frame.close_idem (strength : Nat) (frames : List Frame) (n : Node) :
    Frame.close strength (Frame.close strength frames n).1 (Frame.close strength frames n).2 =
      Frame.close strength frames n := by
  induction frames generalizing n with
  | nil => rfl
  | cons frame frames ih =>
      cases frame with
      | prefixed op s => rfl
      | paren s => rfl
      | binary op left =>
          rw [Frame.close]
          split
          · exact ih _
          · rename_i h
            simp [Frame.close, h]

end Chip8.Asm
