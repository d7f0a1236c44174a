import Chip8.Asm.Form
import Chip8.Asm.Token
import Chip8.Asm.Value

/-! # Diagnostics

What the assembler reports about a source text: a cause and its place. Severity, code and wording
follow from the cause. -/

namespace Chip8.Asm

/-- How much a diagnostic weighs. Only errors keep a program from being assembled. -/
inductive Severity where
  | error
  | warning
  | advice
deriving DecidableEq, Repr

/-- Why something is reported. -/
inductive Cause where
  /-- A keyword as a label. -/
  | reservedLabel (word : List Char)
  | invalidName (word : List Char)
  | duplicateSymbol (name : Identifier) (previous : Span)
  | unknownMnemonic (word : List Char)
  /-- No form of the mnemonic takes the operands. -/
  | noForm (mnemonic : List Char)
  /-- More than one form of the mnemonic takes the operands. -/
  | ambiguousForm (mnemonic : List Char) (count : Nat)
  | aliasInExpression (name : Identifier)
  | registerInExpression
  | badNumber (word : List Char) (fault : Numeral.Fault)
  | unknownDirective
  /-- A keyword as an alias. -/
  | reservedAlias (name : Identifier)
  | duplicateAlias (name : Identifier)
  | unexpected (expected : String) (found : TokenKind)
  /-- A symbol that cannot be given its value. -/
  | symbol (e : SymbolError)
  /-- A constant that depends on a later label. -/
  | forwardReference (name : Identifier)
  | evaluation (e : EvalError)
  | outOfRange (value : Int64) (bits : Nat)
  | originOutOfReach (target : Int64) (address : Nat)
  | reservation (count : Int64)
  | overflow
  | misaligned (address : Nat)
  | unusedLabel (name : Identifier)
deriving DecidableEq

namespace Cause

def severity : Cause → Severity
  | misaligned _ => .warning
  | unusedLabel _ => .advice
  | _ => .error

/-- The class of the cause, as tools refer to it. -/
def code : Cause → String
  | reservedLabel _ => "parse::reserved_label"
  | invalidName _ => "parse::identifier"
  | duplicateSymbol _ _ => "parse::duplicate_symbol"
  | unknownMnemonic _ | noForm _ => "parse::unknown_instruction"
  | ambiguousForm _ _ => "parse::ambiguous_instruction"
  | aliasInExpression _ => "parse::alias_in_expression"
  | registerInExpression => "parse::register_in_expression"
  | badNumber _ _ => "parse::bad_literal"
  | unknownDirective => "parse::directive"
  | reservedAlias _ | duplicateAlias _ => "parse::alias"
  | unexpected _ _ => "parse::unexpected_token"
  | symbol _ => "asm::symbol"
  | forwardReference _ => "asm::forward_reference"
  | evaluation _ => "asm::eval"
  | outOfRange _ _ => "asm::range"
  | originOutOfReach _ _ => "asm::origin"
  | reservation _ => "asm::reserve"
  | overflow => "asm::overflow"
  | misaligned _ => "asm::alignment"
  | unusedLabel _ => "asm::unused_label"

private def quoted (cs : List Char) : String := "`" ++ String.ofList cs ++ "`"

private def upper (cs : List Char) : List Char := cs.map Char.toUpper

def text : Cause → String
  | reservedLabel w => quoted w ++ " is a reserved word and cannot be used as a label"
  | invalidName w => quoted w ++ " is not a valid identifier"
  | duplicateSymbol name previous => (SymbolError.duplicate name previous).message
  | unknownMnemonic w => "Unknown instruction " ++ quoted w
  | noForm w =>
      "Unknown instruction: no form of " ++ quoted (upper w) ++ " takes these operands"
  | ambiguousForm w count =>
      "Internal error: " ++ quoted (upper w) ++ " matches " ++ Numeral.decimal count ++
        " instruction forms"
  | aliasInExpression name =>
      quoted name.chars ++ " is a register alias and cannot appear in an expression"
  | registerInExpression => "Registers cannot appear in an expression"
  | badNumber w fault => "Invalid numeric literal " ++ quoted w ++ ": " ++ fault.message
  | unknownDirective => "Encountered an invalid directive."
  | reservedAlias name => quoted name.chars ++ " is a reserved word and cannot be an alias"
  | duplicateAlias name => "Alias " ++ quoted name.chars ++ " is already defined"
  | unexpected expected found => "Expected " ++ expected ++ ", found " ++ found.description
  | symbol e => e.message
  | forwardReference name =>
      "Value of " ++ quoted name.chars ++ " depends on a label defined later"
  | evaluation e => e.message
  | outOfRange value bits =>
      "Value " ++ Numeral.signed value.toInt ++ " does not fit in " ++ Numeral.decimal bits ++
        " bits"
  | originOutOfReach target address =>
      "Cannot move origin to 0x" ++ Numeral.hex 1 target.toUInt64.toNat ++
        ", current address is 0x" ++ Numeral.hex 3 address
  | reservation count => "Cannot reserve " ++ Numeral.signed count.toInt ++ " bytes"
  | overflow => "Program extends past the end of the address space"
  | misaligned address => "Instruction at odd address 0x" ++ Numeral.hex 3 address
  | unusedLabel name => "Label " ++ quoted name.chars ++ " is never referenced"

/-- What is written at the place itself. -/
def label : Cause → Option String
  | duplicateSymbol _ _ => some "duplicate declaration"
  | unknownMnemonic _ => some "not an instruction"
  | noForm _ => some "invalid operands"
  | unknownDirective => some "unknown directive"
  | unexpected _ _ => some "unexpected token"
  | outOfRange _ bits =>
      some ("allowed range is " ++ Numeral.signed (-(wordCount (bits - 1) : Int)) ++ " to " ++
        Numeral.decimal (wordCount bits - 1))
  | _ => none

/-- Advice on what to do. -/
def help : Cause → Option String
  | duplicateSymbol _ previous =>
      some ("the first declaration is at offset " ++ Numeral.decimal previous.start)
  | noForm w => some ("available forms: " ++ "; ".intercalate ((formsNamed w).map Form.text))
  | badNumber _ _ => some "numbers are written as 42, 0x2A or %101010"
  | unknownDirective =>
      some "available directives: .equ, .alias, .origin, .byte, .word, .reserve"
  | forwardReference _ =>
      some ".equ may only refer to labels and constants declared above it"
  | originOutOfReach _ _ => some ".origin can only move forward and must stay below 0x10000"
  | misaligned _ => some "jumps can only reach even addresses; pad data with .byte 0"
  | _ => none

end Cause

/-- The number of source lines that are shown around a diagnostic. -/
def contextLines : Nat := 8

/-- A cause and its place. -/
structure Diagnostic where
  cause : Cause
  span : Span
deriving DecidableEq

namespace Diagnostic

def severity (d : Diagnostic) : Severity := d.cause.severity

def isError (d : Diagnostic) : Bool := d.severity = .error

/-- An expression that has no value, reported where its evaluation failed. -/
def ofEvaluation (e : EvalError) : Diagnostic := ⟨.evaluation e, e.span⟩

/-- A token in the place of something else. -/
def unexpected (t : Token) (expected : String) : Diagnostic := ⟨.unexpected expected t.kind, t.span⟩

end Diagnostic

/-- Whether there is an error among the diagnostics. -/
def hasErrors (ds : List Diagnostic) : Bool := ds.any Diagnostic.isError

theorem hasErrors_append (as bs : List Diagnostic) :
    hasErrors (as ++ bs) = (hasErrors as || hasErrors bs) := by
  simp [hasErrors]

end Chip8.Asm
