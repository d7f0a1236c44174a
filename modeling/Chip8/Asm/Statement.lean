import Chip8.Asm.Expression
import Chip8.Asm.Line

/-! # Statements

What the lines of a source text say.

* `parse` reads each line on its own; lines share the names declared so far (`Scope`). A line gives
  at most one statement, and at most one error beside that of a label declared twice.
* A line is a label, an instruction or directive, and a comment, each of which may be missing. The
  declarations of a line count even if an error follows in it. -/

namespace Chip8.Asm

/-- A name at the place of its declaration. -/
structure Label where
  name : Identifier
  span : Span
deriving DecidableEq, Repr

/-- What a statement asks for. -/
inductive Body where
  | instruction (form : Form) (operands : List Node)
  /-- `.equ name, value` -/
  | constant (name : Label) (value : Node)
  /-- `.origin address` -/
  | origin (address : Node)
  /-- `.byte value, ...` -/
  | bytes (values : List Node)
  /-- `.word value, ...` -/
  | words (values : List Node)
  /-- `.reserve count` -/
  | reserve (count : Node)
deriving Repr

/-- The operands and expressions of a body. -/
def Body.nodes : Body → List Node
  | instruction _ operands => operands
  | constant _ value => [value]
  | origin n | reserve n => [n]
  | bytes values | words values => values

/-- What a line says. -/
structure Statement where
  label : Option Label
  body : Option Body
  comment : Option Span
  span : Span
deriving Repr

namespace Statement

/-- The operands and expressions of a statement. -/
def nodes (s : Statement) : List Node :=
  match s.body with
  | none => []
  | some body => body.nodes

/-- The names that a statement refers to. -/
def references (s : Statement) : List Identifier :=
  s.nodes.flatMap fun n => n.identifiers.map Prod.fst

end Statement

/-- The names declared so far. -/
structure Scope where
  symbols : SymbolTable
  aliases : Aliases

def Scope.empty : Scope := ⟨.empty, []⟩

/-! ### Operands -/

/-- The tokens between two commas, and the comma or the end of the code behind them. -/
structure Piece where
  tokens : List Token
  stop : Token

/-- The pieces of a list of operands. -/
def pieces (stop : Token) : List Token → List Piece
  | [] => [⟨[], stop⟩]
  | t :: ts =>
      if t.kind = .comma then ⟨[], t⟩ :: pieces stop ts
      else
        match pieces stop ts with
        | p :: ps => { p with tokens := t :: p.tokens } :: ps
        | [] => []

/-- Read pieces one by one. The list ends with the first one that is not read completely; the answer
tells the token that follows the list, if it is not the end of the code. -/
def readPieces (read : Piece → Except Diagnostic (Node × List Token)) :
    List Piece → Except Diagnostic (List Node × Option Token)
  | [] => .ok ([], none)
  | p :: ps =>
      match read p with
      | .error d => .error d
      | .ok (n, t :: _) => .ok ([n], some t)
      | .ok (n, []) =>
          match readPieces read ps with
          | .error d => .error d
          | .ok (ns, rest) => .ok (n :: ns, rest)

/-- The tokens up to the first comma, and that comma. -/
def firstPiece (stop : Token) (ts : List Token) : Piece × Option Token :=
  match ts.find? (·.kind = .comma) with
  | some comma => (⟨ts.takeWhile (·.kind ≠ .comma), comma⟩, some comma)
  | none => (⟨ts, stop⟩, none)

/-- Read one piece; the answer tells the token that follows it. -/
def readSingle (read : Piece → Except Diagnostic (Node × List Token)) (stop : Token)
    (ts : List Token) : Except Diagnostic (Node × Option Token) :=
  let (piece, comma) := firstPiece stop ts
  (read piece).map fun (n, rest) => (n, rest.head?.or comma)

/-- The operand that is a name on its own: a keyword, an alias of a register, or a symbol. -/
def wordOperand (aliases : Aliases) (t : Token) : Except Diagnostic Node :=
  match Keyword.ofWord? t.chars with
  | some k => .ok (.keyword k t.span)
  | none =>
      match identifierOf t with
      | .error d => .error d
      | .ok i =>
          match aliases.get? i with
          | some r => .ok (.register r t.span)
          | none => .ok (.name i t.span)

/-- The operand that starts with a bracket. -/
def bracketOperand (stop : Token) (bracket : Token) (ts : List Token) :
    Except Diagnostic (Node × List Token) :=
  let inner := ts.head?.getD stop
  if inner.kind = .name ∧ Keyword.ofWord? inner.chars = some .index then
    let rest := ts.tail
    let last := rest.head?.getD stop
    if last.kind = .bracketClose then
      .ok (.keyword .indexMemory (bracket.span.join last.span), rest.tail)
    else .error (.unexpected last "`]`")
  else .error (.unexpected inner "`I`")

/-- Read an expression. -/
def readTree (aliases : Aliases) (p : Piece) : Except Diagnostic (Node × List Token) :=
  readExpression aliases p.stop p.tokens

/-- Read an operand of an instruction. -/
def readOperand (aliases : Aliases) (p : Piece) : Except Diagnostic (Node × List Token) :=
  match p.tokens with
  | [] => readTree aliases p
  | t :: ts =>
      match t.kind, ts with
      | .register r, _ => .ok (.register r t.span, ts)
      | .bracketOpen, _ => bracketOperand p.stop t ts
      | .name, [] => (wordOperand aliases t).map fun n => (n, [])
      | _, _ => readTree aliases p

/-- Read an expression that a directive asks for, which must not be missing. -/
def readValue (aliases : Aliases) (p : Piece) : Except Diagnostic (Node × List Token) :=
  if p.tokens.isEmpty ∧ p.stop.kind ≠ .comma then .error (.unexpected p.stop "an expression")
  else readTree aliases p

/-- Take a token of a kind. -/
def expect (kind : TokenKind) (expected : String) (stop : Token) (ts : List Token) :
    Except Diagnostic (Token × List Token) :=
  let t := ts.head?.getD stop
  if t.kind = kind then .ok (t, ts.tail) else .error (.unexpected t expected)

/-! ### Instructions -/

/-- The form of an instruction, which has to be the only one that takes the operands. -/
def selectForm (mnemonic : Token) (operands : List Node) : Except Diagnostic Form :=
  let span := operands.getLast?.elim mnemonic.span fun n => mnemonic.span.join n.span
  match matching mnemonic.chars operands with
  | [form] => .ok form
  | [] => .error ⟨.noForm mnemonic.chars, span⟩
  | found => .error ⟨.ambiguousForm mnemonic.chars found.length, span⟩

/-- The operands of an instruction, and the token that follows them. -/
def readOperands (aliases : Aliases) (stop : Token) (ts : List Token) :
    Except Diagnostic (List Node × Option Token) :=
  if ts.isEmpty then .ok ([], none) else readPieces (readOperand aliases) (pieces stop ts)

/-- Read an instruction behind its mnemonic. -/
def readInstruction (aliases : Aliases) (stop mnemonic : Token) (ts : List Token) :
    Except Diagnostic (Body × Option Token) := do
  if isMnemonic mnemonic.chars then
    let (operands, rest) ← readOperands aliases stop ts
    let form ← selectForm mnemonic operands
    return (.instruction form operands, rest)
  else throw ⟨.unknownMnemonic mnemonic.chars, mnemonic.span⟩

/-! ### Directives -/

/-- The directives. -/
inductive Directive where
  | constant
  | registerAlias
  | origin
  | bytes
  | words
  | reserve
deriving DecidableEq, Repr

namespace Directive

/-- The name behind the dot. -/
def chars : Directive → List Char
  | constant => "equ".toList
  | registerAlias => "alias".toList
  | origin => "origin".toList
  | bytes => "byte".toList
  | words => "word".toList
  | reserve => "reserve".toList

def all : List Directive := [constant, registerAlias, origin, bytes, words, reserve]

/-- The directive that a token names in any letter case. -/
def ofToken? (t : Token) : Option Directive :=
  all.find? fun d => d.chars = (t.chars.drop 1).map Char.toLower

end Directive

/-- Declare a symbol at the place of its name. -/
def Scope.declare (scope : Scope) (kind : SymbolKind) (label : Label) : Except Diagnostic Scope :=
  match scope.symbols.declare label.name kind label.span with
  | .ok symbols => .ok { scope with symbols := symbols }
  | .error (.duplicate name previous) => .error ⟨.duplicateSymbol name previous, label.span⟩
  | .error e => .error ⟨.symbol e, label.span⟩

/-- Read `name, value` and declare the name. -/
def readConstant (scope : Scope) (stop : Token) (ts : List Token) :
    Except Diagnostic (Scope × Body × Option Token) := do
  let (t, ts) ← expect .name "a constant name" stop ts
  let name ← identifierOf t
  let (_, ts) ← expect .comma "`,`" stop ts
  let (value, rest) ← readSingle (readTree scope.aliases) stop ts
  let scope ← scope.declare .constant ⟨name, t.span⟩
  return (scope, .constant ⟨name, t.span⟩ value, rest)

/-- Read `name, register` and note that the name stands for the register. -/
def readAlias (scope : Scope) (stop : Token) (ts : List Token) :
    Except Diagnostic (Scope × Option Token) := do
  let (t, ts) ← expect .name "an alias name" stop ts
  let name ← identifierOf t
  if (Keyword.ofWord? t.chars).isSome then throw ⟨.reservedAlias name, t.span⟩
  let (_, ts) ← expect .comma "`,`" stop ts
  let r := ts.head?.getD stop
  match r.kind with
  | .register number =>
      if (scope.aliases.get? name).isSome then throw ⟨.duplicateAlias name, t.span⟩
      return ({ scope with aliases := (name, number) :: scope.aliases }, ts.tail.head?)
  | _ => throw (.unexpected r "a register")

/-- The expression of a directive that takes one. -/
def readOnly (aliases : Aliases) (stop : Token) (body : Node → Body) (ts : List Token) :
    Except Diagnostic (Option Body × Option Token) := do
  let (n, rest) ← readSingle (readValue aliases) stop ts
  return (some (body n), rest)

/-- The expressions of a directive that takes any number of them. -/
def readAll (aliases : Aliases) (stop : Token) (body : List Node → Body) (ts : List Token) :
    Except Diagnostic (Option Body × Option Token) := do
  let (ns, rest) ← readPieces (readValue aliases) (pieces stop ts)
  return (some (body ns), rest)

/-- Read a directive behind its name. -/
def readDirective (scope : Scope) (stop name : Token) (ts : List Token) :
    Except Diagnostic (Scope × Option Body × Option Token) :=
  match Directive.ofToken? name with
  | some .constant => (readConstant scope stop ts).map fun (scope, b, rest) => (scope, some b, rest)
  | some .registerAlias => (readAlias scope stop ts).map fun (scope, rest) => (scope, none, rest)
  | some .origin => (readOnly scope.aliases stop .origin ts).map (scope, ·)
  | some .bytes => (readAll scope.aliases stop .bytes ts).map (scope, ·)
  | some .words => (readAll scope.aliases stop .words ts).map (scope, ·)
  | some .reserve => (readOnly scope.aliases stop .reserve ts).map (scope, ·)
  | none => .error ⟨.unknownDirective, name.span⟩

/-! ### Lines -/

/-- The label of a line, if the code starts with a name and a colon. -/
def splitLabel : List Token → Option Token × List Token
  | t :: colon :: ts =>
      if t.kind = .name ∧ colon.kind = .colon then (some t, ts) else (none, t :: colon :: ts)
  | ts => (none, ts)

/-- Declare the label of a line. A label that is declared already is reported and left out. -/
def declareLabel (scope : Scope) (t : Token) :
    Except Diagnostic (Scope × List Diagnostic × Option Label) := do
  if (Keyword.ofWord? t.chars).isSome then throw ⟨.reservedLabel t.chars, t.span⟩
  let name ← identifierOf t
  match scope.declare .label ⟨name, t.span⟩ with
  | .ok scope => return (scope, [], some ⟨name, t.span⟩)
  | .error d => return (scope, [d], none)

/-- Read the instruction or directive of a line. The answer tells the token that follows it. -/
def readBody (scope : Scope) (stop : Token) :
    List Token → Except Diagnostic (Scope × Option Body × Option Token)
  | [] => .ok (scope, none, none)
  | t :: ts =>
      match t.kind with
      | .name =>
          (readInstruction scope.aliases stop t ts).map fun (b, rest) => (scope, some b, rest)
      | .directive => readDirective scope stop t ts
      | _ => .ok (scope, none, some t)

/-- The statement of a line, unless the line says nothing. -/
def statementOf? (l : Line) (label : Option Label) (body : Option Body) : Option Statement :=
  let comment := l.commentSpan?
  if label.isNone ∧ body.isNone ∧ comment.isNone then none
  else
    let first := l.tokens.head?.getD l.stop
    some ⟨label, body, comment, ⟨first.span.start, l.endOffset - first.span.start⟩⟩

/-- What a line adds to the names, and what it says or what is wrong with it. -/
structure LineResult where
  scope : Scope
  diagnostics : List Diagnostic
  statement : Option Statement

/-- Read the rest of a line behind its label. -/
def parseRest (scope : Scope) (l : Line) (label : Option Label) (reports : List Diagnostic)
    (ts : List Token) : LineResult :=
  match readBody scope l.stop ts with
  | .error d => ⟨scope, reports ++ [d], none⟩
  | .ok (scope, _, some t) => ⟨scope, reports ++ [.unexpected t "end of line"], none⟩
  | .ok (scope, body, none) => ⟨scope, reports, statementOf? l label body⟩

/-- Read a line. -/
def parseLine (scope : Scope) (l : Line) : LineResult :=
  match splitLabel l.tokens with
  | (none, ts) => parseRest scope l none [] ts
  | (some t, ts) =>
      match declareLabel scope t with
      | .error d => ⟨scope, [d], none⟩
      | .ok (scope, reports, label) => parseRest scope l label reports ts

/-- What a source text says. -/
structure Parsed where
  statements : List Statement
  symbols : SymbolTable
  diagnostics : List Diagnostic

/-- Read lines one after the other. -/
def parseLines (scope : Scope) : List Line → Parsed
  | [] => ⟨[], scope.symbols, []⟩
  | l :: ls =>
      let r := parseLine scope l
      let p := parseLines r.scope ls
      ⟨r.statement.toList ++ p.statements, p.symbols, r.diagnostics ++ p.diagnostics⟩

/-- Read a source text. -/
def parse (source : String) : Parsed := parseLines .empty (lines source)

end Chip8.Asm
