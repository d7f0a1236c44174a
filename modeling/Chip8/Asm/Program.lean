import Chip8.Asm.Statement

/-! # Programs

From statements to a binary, in two passes.

* `layout` walks over the statements and gives every label its address and every constant its value.
  Directives that move the address are valued with the names that have a value by then.
* `encode` walks over them again and produces the bytes, with every name valued.
* `assemble` is both: a program if nothing is wrong, else everything that was found by the end of
  the pass that found an error. -/

namespace Chip8.Asm

/-- The number of addresses that a 16-bit word can name. -/
def addressSpace : Nat := 0x10000

/-- Where the next byte goes. Addresses are 32-bit words, so that one behind the address space is
noticed; `overflowed` remembers that it was. -/
structure Place where
  address : Nat
  overflowed : Bool
deriving DecidableEq, Repr

namespace Place

/-- The start of a program. -/
def ofOrigin (origin : UInt16) : Place := ⟨origin.toNat, false⟩

/-- Go on behind `n` bytes that the source text at `span` asks for. The first time that this leaves
the address space is an error. -/
def advance (p : Place) (n : Nat) (span : Span) : Place × List Diagnostic :=
  let address := (p.address + n) % 0x100000000
  if addressSpace < address ∧ ¬ p.overflowed then (⟨address, true⟩, [⟨.overflow, span⟩])
  else (⟨address, p.overflowed⟩, [])

/-- The part of the bytes that lies in the address space. -/
def fitting (p : Place) (bytes : List UInt8) : List UInt8 :=
  if p.overflowed then [] else bytes.take (addressSpace - p.address)

end Place

/-- The value of an operand as a word of `bits` bits, if it is in the range of a signed or an
unsigned one. -/
def fit? (value : Int64) (bits : Nat) : Option UInt16 :=
  let n := value.toInt
  if -(wordCount (bits - 1) : Int) ≤ n ∧ n < wordCount bits then
    some (UInt16.ofInt (n % wordCount bits))
  else none

/-- The word that an operand stands for. -/
def immediate (symbols : SymbolTable) (bits : Nat) (n : Node) : Except Diagnostic UInt16 :=
  match n.numberIn symbols with
  | .error e => .error (.ofEvaluation e)
  | .ok value =>
      match fit? value bits with
      | some w => .ok w
      | none => .error ⟨.outOfRange value bits, n.span⟩

/-- The number of bytes between the address and the one that `.origin` demands. -/
def gap (symbols : SymbolTable) (address : Nat) (target : Node) : Except Diagnostic Nat :=
  match target.numberIn symbols with
  | .error e => .error (.ofEvaluation e)
  | .ok t =>
      if t.toInt < address ∨ addressSpace ≤ t.toInt then
        .error ⟨.originOutOfReach t address, target.span⟩
      else .ok (t.toInt.toNat - address)

/-- The number of bytes that `.reserve` demands. -/
def reservation (symbols : SymbolTable) (count : Node) : Except Diagnostic Nat :=
  match count.numberIn symbols with
  | .error e => .error (.ofEvaluation e)
  | .ok n =>
      if 0 ≤ n.toInt ∧ n.toInt < addressSpace then .ok n.toInt.toNat
      else .error ⟨.reservation n, count.span⟩

/-- The result, or a default in its place and what is wrong. -/
def orReport {α : Type} (default : α) : Except Diagnostic α → α × List Diagnostic
  | .ok a => (a, [])
  | .error d => (default, [d])

/-- A word as two bytes, the high one first. -/
def wordBytes (w : UInt16) : List UInt8 := [(w >>> 8).toUInt8, w.toUInt8]

/-! ### Addresses -/

/-- Where a pass is, and what it knows. -/
structure Layout where
  place : Place
  symbols : SymbolTable
deriving DecidableEq

namespace Layout

/-- Give a symbol its value. -/
def define (l : Layout) (name : Label) (value : Int64) : Layout × List Diagnostic :=
  match l.symbols.define name.name value with
  | .ok symbols => ({ l with symbols := symbols }, [])
  | .error e => (l, [⟨.symbol e, name.span⟩])

def advance (l : Layout) (n : Nat) (span : Span) : Layout × List Diagnostic :=
  let (place, reports) := l.place.advance n span
  ({ l with place := place }, reports)

/-- Go on behind as many bytes as are demanded, unless that is wrong. -/
def advanceBy (l : Layout) (count : Except Diagnostic Nat) (span : Span) :
    Layout × List Diagnostic :=
  match count with
  | .ok n => l.advance n span
  | .error d => (l, [d])

/-- Give a constant its value. -/
def constant (l : Layout) (name : Label) (value : Node) : Layout × List Diagnostic :=
  match value.tryNumberIn l.symbols with
  | .ok (some n) => l.define name n
  | .ok none => (l, [⟨.forwardReference name.name, value.span⟩])
  | .error e => (l, [.ofEvaluation e])

/-- Lay out a body of the statement at `span`. -/
def body (l : Layout) (span : Span) : Body → Layout × List Diagnostic
  | .instruction .. => l.advance 2 span
  | .constant name value => l.constant name value
  | .origin n => l.advanceBy (gap l.symbols l.place.address n) n.span
  | .bytes values => l.advance values.length span
  | .words values => l.advance (2 * values.length) span
  | .reserve n => l.advanceBy (reservation l.symbols n) span

/-- Lay out a statement. -/
def statement (l : Layout) (s : Statement) : Layout × List Diagnostic :=
  let (l, labelReports) := match s.label with
    | some label => l.define label (Int64.ofNat l.place.address)
    | none => (l, [])
  let (l, bodyReports) := match s.body with
    | some b => l.body s.span b
    | none => (l, [])
  (l, labelReports ++ bodyReports)

/-- Lay out statements one after the other. -/
def statements (l : Layout) : List Statement → Layout × List Diagnostic
  | [] => (l, [])
  | s :: ss =>
      let (l, reports) := l.statement s
      let (l, more) := l.statements ss
      (l, reports ++ more)

end Layout

/-! ### Code -/

/-- What a part of a program contributes: the place behind it, its bytes, and what is wrong. -/
structure Output where
  place : Place
  bytes : List UInt8
  diagnostics : List Diagnostic

namespace Output

def nothing (p : Place) : Output := ⟨p, [], []⟩

/-- Put bytes at a place. -/
def ofBytes (p : Place) (bytes : List UInt8) (span : Span) : Output :=
  let (next, reports) := p.advance bytes.length span
  ⟨next, p.fitting bytes, reports⟩

/-- Put zeros at a place, at most as many as there are addresses. -/
def zeros (p : Place) (n : Nat) (span : Span) : Output :=
  ofBytes p (List.replicate (min n addressSpace) 0) span

/-- Put something behind. -/
def andThen (o : Output) (next : Place → Output) : Output :=
  let o' := next o.place
  ⟨o'.place, o.bytes ++ o'.bytes, o.diagnostics ++ o'.diagnostics⟩

/-- Report in front. -/
def reporting (reports : List Diagnostic) (o : Output) : Output :=
  { o with diagnostics := reports ++ o.diagnostics }

end Output

/-- The value of an operand in a slot: that of an expression, or the number of a register. -/
def slotValue (symbols : SymbolTable) (shape : Shape) (n : Node) : Except Diagnostic UInt16 :=
  match shape.bits with
  | some bits => immediate symbols bits n
  | none =>
      match n with
      | .register r _ => .ok r.toUInt16
      | _ => .ok 0

/-- The values of the operands of an instruction, and what is wrong with them. -/
def slotValues (symbols : SymbolTable) : List Shape → List Node → List UInt16 × List Diagnostic
  | shape :: shapes, n :: ns =>
      let (value, reports) := orReport 0 (slotValue symbols shape n)
      let (values, more) := slotValues symbols shapes ns
      (value :: values, reports ++ more)
  | _, _ => ([], [])

/-- The instruction word, which is zero if an operand is wrong. -/
def instructionWord (symbols : SymbolTable) (form : Form) (operands : List Node) :
    UInt16 × List Diagnostic :=
  let (values, reports) := slotValues symbols form.signature operands
  (if reports.isEmpty then form.encode values else 0, reports)

/-- A warning if an instruction does not start at an even address. -/
def alignment (address : Nat) (span : Span) : List Diagnostic :=
  if address % 2 = 0 then [] else [⟨.misaligned address, span⟩]

/-- Put the values of expressions of `bits` bits one behind the other. -/
def encodeValues (symbols : SymbolTable) (bits : Nat) (toBytes : UInt16 → List UInt8) (span : Span)
    (p : Place) : List Node → Output
  | [] => .nothing p
  | n :: ns =>
      let (value, reports) := orReport 0 (immediate symbols bits n)
      ((Output.ofBytes p (toBytes value) span).reporting reports).andThen fun p =>
        encodeValues symbols bits toBytes span p ns

/-- Put as many zeros as are demanded, unless that is wrong. -/
def encodeZeros (p : Place) (count : Except Diagnostic Nat) (span : Span) : Output :=
  match count with
  | .ok n => .zeros p n span
  | .error d => ⟨p, [], [d]⟩

/-- The code of a body of the statement at `span`. -/
def encodeBody (symbols : SymbolTable) (span : Span) (p : Place) : Body → Output
  | .instruction form operands =>
      let (word, reports) := instructionWord symbols form operands
      (Output.ofBytes p (wordBytes word) span).reporting (alignment p.address span ++ reports)
  | .constant .. => .nothing p
  | .origin n => encodeZeros p (gap symbols p.address n) n.span
  | .bytes values => encodeValues symbols 8 (fun w => [w.toUInt8]) span p values
  | .words values => encodeValues symbols 16 wordBytes span p values
  | .reserve n => encodeZeros p (reservation symbols n) span

/-- The code of a statement. -/
def encodeStatement (symbols : SymbolTable) (p : Place) (s : Statement) : Output :=
  match s.body with
  | none => .nothing p
  | some b => encodeBody symbols s.span p b

/-- The code of statements one behind the other. -/
def encodeStatements (symbols : SymbolTable) (p : Place) : List Statement → Output
  | [] => .nothing p
  | s :: ss =>
      (encodeStatement symbols p s).andThen fun p => encodeStatements symbols p ss

/-! ### Programs -/

/-- An assembled program. -/
structure Program where
  /-- The address of the first byte. -/
  origin : UInt16
  bytes : List UInt8
  symbols : SymbolTable
  /-- Warnings and advice. -/
  notes : List Diagnostic
deriving DecidableEq

/-- The table with every name marked that a statement refers to. -/
def markReferences (symbols : SymbolTable) (ss : List Statement) : SymbolTable :=
  (ss.flatMap Statement.references).foldl SymbolTable.markUsed symbols

/-- The labels that no operand refers to. -/
def unusedLabels (symbols : SymbolTable) : List Diagnostic :=
  (symbols.symbols.filter fun s => s.kind = .label ∧ ¬ s.used).map fun s =>
    ⟨.unusedLabel s.name, s.span⟩

/-- Assemble statements for an origin. -/
def assembleParsed (parsed : Parsed) (origin : UInt16) : Except (List Diagnostic) Program :=
  if hasErrors parsed.diagnostics then .error parsed.diagnostics
  else
    let start := Place.ofOrigin origin
    let (layout, found) := Layout.statements ⟨start, parsed.symbols⟩ parsed.statements
    let found := parsed.diagnostics ++ found
    if hasErrors found then .error found
    else
      let code := encodeStatements layout.symbols start parsed.statements
      let symbols := markReferences layout.symbols parsed.statements
      let found := found ++ code.diagnostics ++ unusedLabels symbols
      if hasErrors found then .error found else .ok ⟨origin, code.bytes, symbols, found⟩

/-- Assemble a source text for an origin. -/
def assemble (source : String) (origin : UInt16) : Except (List Diagnostic) Program :=
  assembleParsed (parse source) origin

end Chip8.Asm
