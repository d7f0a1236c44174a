import Chip8.Asm.Lexer
import Chip8.Asm.Statement

/-! # Reading token by token

A source text read as it comes: one token at a time from a `Lexer`, by recursive descent. Nothing
says in advance where a line ends or how much of it an expression takes.

* `Reading` is a reading that may be refused, or not end at all. A refusal keeps the place where
  the reading stopped.
* A token that ends a line is given back before it is reported (`Reader.refuse`), so that
  `Reader.recover`, which skips the rest of a line behind an error, stops at the end of this line.
* `Reader.step` is one turn of the main loop: a statement, or an error and what is skipped behind
  it.

`parse` says the same of whole lines. -/

namespace Chip8.Asm

/-- A reading from a state. It gives an answer or a diagnostic and the state in which it stopped, or
nothing if it does not end. -/
abbrev Reading (σ α : Type) : Type := ExceptT Diagnostic (StateT σ Option) α

/-- What a reading gives, and where it stops. -/
def Reading.outcome {σ α : Type} (m : Reading σ α) (s : σ) : Option (Except Diagnostic α × σ) :=
  m.run.run s

/-- The stretch from the start of one span to the stop of a later one. -/
def Span.through (a b : Span) : Span := ⟨a.start, b.stop - a.start⟩

namespace Lexer

/-- Skip the rest of a line and what ends it. -/
def skipLine (l : Lexer) : Option Lexer :=
  let (t, l) := l.next
  if t.kind.endsLine then
    some l
  else
    l |>.skipLine
partial_fixpoint

/-- The text of a comment from its first word to its last one, where blanks are kept. What ends the
line is given back. -/
def commentText (l : Lexer) (text : Option Span) : Option (Option Span × Lexer) :=
  let (t, l) := l.next
  if t.kind.endsLine then
    some (text, l.unread t)
  else if t.kind = TokenKind.text then
    l |>.commentText (some ((text.getD t.span).through t.span))
  else
    l |>.commentText text
partial_fixpoint

end Lexer

/-- A reading of tokens. -/
abbrev TokenReading (α : Type) : Type := Reading Lexer α

/-- What is left of a source text, and what has been read of it. -/
structure Reader where
  lexer : Lexer
  scope : Scope
  statements : List Statement
  reports : List Diagnostic

/-- A reading of lines. -/
abbrev LineReading (α : Type) : Type := Reading Reader α

namespace Reader

/-- A reader in front of a source text. -/
def ofText (source : String) : Reader := ⟨.ofText source, .empty, [], []⟩

/-! ### Tokens -/

def nextToken : TokenReading Token := modifyGet Lexer.next

def peekToken : TokenReading Token := modifyGet Lexer.peek

def putBack (t : Token) : TokenReading Unit := modify (Lexer.unread · t)

/-- What a lexer finds, if its search ends. -/
def ofLexer {α : Type} (search : Lexer → Option (α × Lexer)) : TokenReading α := ExceptT.lift search

/-- Report a token. The end of a line is given back. -/
def refuse {α : Type} (t : Token) (expected : String) : TokenReading α := do
  if t.kind.endsLine then
    putBack t
  throw (.unexpected t expected)

/-- Take a token of a kind. -/
def demand (kind : TokenKind) (expected : String) : TokenReading Token := do
  let t ← nextToken
  if t.kind = kind then
    return t
  else
    refuse t expected

/-! ### Expressions -/

/-- The operator that a token is between two operands, if it binds at least as tightly as
`floor`. -/
def binding? (floor : Nat) (t : Token) : Option (Operator × Nat) :=
  match t.kind with
  | .operator op => (op.precedence.filter (floor ≤ ·)).map fun strength => (op, strength)
  | _ => none

/-- The operator that a token is in front of an operand. -/
def leading? (t : Token) : Option Operator :=
  match t.kind with
  | .operator op => op.asPrefix
  | _ => none

end Reader

namespace Aliases

open Reader

mutual

/-- Operands and the operators between them that bind at least as tightly as `floor`. The token
`first` has been taken already. -/
def binary (aliases : Aliases) (floor : Nat) (first : Token) : TokenReading Node := do
  let left ← aliases |>.unary first
  aliases |>.binaryRest floor left
partial_fixpoint

/-- Go on behind the left operand. -/
def binaryRest (aliases : Aliases) (floor : Nat) (left : Node) : TokenReading Node := do
  let t ← nextToken
  match binding? floor t with
  | some (op, strength) =>
      let first ← nextToken
      let right ← aliases |>.binary (strength + 1) first
      aliases |>.binaryRest floor (.apply op [left, right] (left.span.join right.span))
  | none =>
      putBack t
      return left
partial_fixpoint

/-- An operand and the operators in front of it. -/
def unary (aliases : Aliases) (t : Token) : TokenReading Node :=
  match leading? t with
  | some op => do
      let next ← nextToken
      let n ← aliases |>.unary next
      return .apply op [n] (t.span.join n.span)
  | none => aliases |>.primary t
partial_fixpoint

/-- A number, a name, or an expression in parentheses. -/
def primary (aliases : Aliases) (t : Token) : TokenReading Node :=
  match t.kind with
  | .number base => do
      let v ← MonadExcept.ofExcept (numberOf base t)
      return .number v t.span
  | .name => MonadExcept.ofExcept (nameOf aliases t)
  | .parenOpen => do
      let first ← nextToken
      let inner ← aliases |>.binary 1 first
      let close ← demand .parenClose "`)`"
      return inner.withSpan (t.span.join close.span)
  | .register _ => throw ⟨.registerInExpression, t.span⟩
  | _ => refuse t "an operand"
partial_fixpoint

end

end Aliases

/-! ### Lists -/

namespace TokenReading

open Reader

/-- What is read once, and once more behind every comma. -/
def separated (read : TokenReading Node) : TokenReading (List Node) := do
  let n ← read
  let t ← nextToken
  if t.kind = .comma then
    let ns ← read |>.separated
    return n :: ns
  else
    putBack t
    return [n]
partial_fixpoint

end TokenReading

/-! ### Operands -/

namespace Reader

/-- An expression whose first token has been taken already. -/
def expression (aliases : Aliases) (first : Token) : TokenReading Node := aliases.binary 1 first

/-- An expression that must not be missing. -/
def singleExpression (aliases : Aliases) : TokenReading Node := do
  let first ← nextToken
  if first.kind.endsCode then
    refuse first "an expression"
  else
    expression aliases first

/-- The keyword `[I]` behind its bracket. -/
def indexMemory (bracket : Token) : TokenReading Node := do
  let inner ← nextToken
  if inner.kind = .name ∧ Keyword.ofWord? inner.chars = some .index then
    let last ← demand .bracketClose "`]`"
    return .keyword .indexMemory (bracket.span.join last.span)
  else
    refuse inner "`I`"

/-- An operand of an instruction. -/
def operand (aliases : Aliases) : TokenReading Node := do
  let t ← nextToken
  match t.kind with
  | .register r => return .register r t.span
  | .bracketOpen => indexMemory t
  | .name =>
      let behind ← peekToken
      if behind.kind = .comma ∨ behind.kind.endsCode then
        MonadExcept.ofExcept (wordOperand aliases t)
      else
        expression aliases t
  | _ => expression aliases t

/-- The operands of an instruction. -/
def operands (aliases : Aliases) : TokenReading (List Node) := do
  let first ← peekToken
  if first.kind.endsCode then
    return []
  else
    (operand aliases).separated

/-! ### Instructions and directives -/

/-- An instruction behind its mnemonic. -/
def instruction (aliases : Aliases) (mnemonic : Token) : TokenReading Body := do
  if isMnemonic mnemonic.chars then
    let ns ← operands aliases
    let form ← MonadExcept.ofExcept (selectForm mnemonic ns)
    return .instruction form ns
  else
    throw ⟨.unknownMnemonic mnemonic.chars, mnemonic.span⟩

/-- `name, value` -/
def constant (scope : Scope) : TokenReading (Scope × Body) := do
  let t ← demand .name "a constant name"
  let name ← MonadExcept.ofExcept (identifierOf t)
  let _ ← demand .comma "`,`"
  let first ← nextToken
  let value ← expression scope.aliases first
  let scope ← MonadExcept.ofExcept (scope.declare .constant ⟨name, t.span⟩)
  return (scope, .constant ⟨name, t.span⟩ value)

/-- `name, register` -/
def registerAlias (scope : Scope) : TokenReading Scope := do
  let t ← demand .name "an alias name"
  let name ← MonadExcept.ofExcept (identifierOf t)
  if (Keyword.ofWord? t.chars).isSome then
    throw ⟨.reservedAlias name, t.span⟩
  else
    let _ ← demand .comma "`,`"
    let r ← nextToken
    match r.kind with
    | .register number =>
        if (scope.aliases.get? name).isSome then
          throw ⟨.duplicateAlias name, t.span⟩
        else
          return { scope with aliases := (name, number) :: scope.aliases }
    | _ => refuse r "a register"

/-- A directive behind its name. -/
def directive (scope : Scope) (name : Token) : TokenReading (Scope × Option Body) :=
  match Directive.ofToken? name with
  | some .constant => do
      let (scope, b) ← constant scope
      return (scope, some b)
  | some .registerAlias => do
      let scope ← registerAlias scope
      return (scope, none)
  | some .origin => do
      let n ← singleExpression scope.aliases
      return (scope, some (.origin n))
  | some .bytes => do
      let ns ← (singleExpression scope.aliases).separated
      return (scope, some (.bytes ns))
  | some .words => do
      let ns ← (singleExpression scope.aliases).separated
      return (scope, some (.words ns))
  | some .reserve => do
      let n ← singleExpression scope.aliases
      return (scope, some (.reserve n))
  | none => throw ⟨.unknownDirective, name.span⟩

/-! ### The end of a line -/

/-- A comment, if there is one. -/
def comment : TokenReading (Option Span) := do
  let mark ← nextToken
  if mark.kind = .commentStart then
    modify (Lexer.keepBlanks · true)
    let text ← ofLexer (·.commentText none)
    modify (Lexer.keepBlanks · false)
    return some (text.getD ⟨mark.span.stop, 0⟩)
  else
    putBack mark
    return none

/-- The end of a line. The end of the file is given back. -/
def endOfLine : TokenReading Span := do
  let t ← nextToken
  if t.kind = .newline then
    return t.span
  else if t.kind = .endOfFile then
    putBack t
    return t.span
  else
    refuse t "end of line"

/-- Skip the rest of a line. -/
def recover : TokenReading Unit := ofLexer fun l => l.skipLine.map ((), ·)

/-! ### Statements -/

/-- Read tokens of a line. -/
def tokens {α : Type} (m : TokenReading α) : LineReading α :=
  ExceptT.mk fun r => (m.outcome r.lexer).map fun (x, lexer) => (x, { r with lexer := lexer })

/-- Declare a label. One that is declared already is reported, and the line goes on. -/
def declare (t : Token) : LineReading (Option Label) := do
  let r ← get
  let (scope, reports, label) ← MonadExcept.ofExcept (declareLabel r.scope t)
  set { r with scope := scope, reports := r.reports ++ reports }
  return label

/-- The label of a line, and the token behind it. -/
def label (first : Token) : LineReading (Option Label × Token) := do
  if first.kind = .name then
    let behind ← tokens nextToken
    if behind.kind = .colon then
      let label ← declare first
      let t ← tokens nextToken
      return (label, t)
    else
      tokens (putBack behind)
      return (none, first)
  else
    return (none, first)

/-- The instruction or directive that starts with a token. -/
def body (t : Token) : LineReading (Option Body) := do
  let r ← get
  match t.kind with
  | .name =>
      let b ← tokens (instruction r.scope.aliases t)
      return some b
  | .directive =>
      let (scope, b) ← tokens (directive r.scope t)
      modify fun r => { r with scope := scope }
      return b
  | _ =>
      tokens (putBack t)
      return none

/-- A line behind its label. -/
def statementBehind (first : Token) (label : Option Label) (t : Token) :
    LineReading (Option Statement) := do
  let body ← body t
  let comment ← tokens comment
  let stop ← tokens endOfLine
  if label.isNone ∧ body.isNone ∧ comment.isNone then
    return none
  else
    return some ⟨label, body, comment, ⟨first.span.start, stop.start - first.span.start⟩⟩

/-- A line. -/
def statement : LineReading (Option Statement) := do
  let first ← tokens nextToken
  let (label, t) ← label first
  statementBehind first label t

/-! ### Source texts -/

/-- A statement, or an error and the rest of its line. -/
def turn : StateT Reader Option Unit := do
  match ← statement.run with
  | .ok s => modify fun r => { r with statements := r.statements ++ s.toList }
  | .error d =>
      modify fun r => { r with reports := r.reports ++ [d] }
      let _ ← (tokens recover).run
      return ()

/-- One turn of the loop; the answer tells whether the text goes on. -/
def step : StateT Reader Option Bool := do
  let r ← get
  let (t, lexer) := r.lexer.peek
  set { r with lexer := lexer }
  if t.kind = .endOfFile then
    return false
  else
    turn
    return true

/-- All turns. -/
def loop : StateT Reader Option Unit := do
  if ← step then
    fun r => r |>.loop
partial_fixpoint

/-- Read a source text token by token, if that ends. -/
def parse (source : String) : Option Parsed :=
  (loop.run (ofText source)).map fun (_, r) => ⟨r.statements, r.scope.symbols, r.reports⟩

end Reader

end Chip8.Asm
