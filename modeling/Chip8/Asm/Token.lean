import Chip8.Asm.Cursor
import Chip8.Asm.Operator
import Chip8.Text.Numeral

/-! # Tokens

The words of assembly source.

* `scan` reads the token at the start of a text: its kind, its characters and what follows. A name
  of two characters that starts with `v` and goes on with a hexadecimal digit is a register; a `%`
  directly in front of binary digits starts a number and any other is the remainder operator.
* `tokensFrom` reads all tokens of a text and skips the blanks between them. -/

namespace Chip8.Asm

/-- The notation of a number. -/
inductive Base where
  /-- `0x1F` -/
  | hexadecimal
  /-- `31` -/
  | decimal
  /-- `%11111` -/
  | binary
deriving DecidableEq, Repr

namespace Base

def radix : Base → Nat
  | hexadecimal => 16
  | decimal => 10
  | binary => 2

/-- The number of characters in front of the digits. -/
def markLength : Base → Nat
  | hexadecimal => 2
  | decimal => 0
  | binary => 1

end Base

/-- The kind of a token. -/
inductive TokenKind where
  | register (number : UInt8)
  /-- A number, its digits unchecked. -/
  | number (base : Base)
  | name
  /-- A dot and a name. -/
  | directive
  | comma
  | colon
  | parenOpen
  | parenClose
  | bracketOpen
  | bracketClose
  | operator (op : Operator)
  | newline
  /-- `;`: the rest of the line is a comment. -/
  | commentStart
  /-- Blanks, where they are kept. -/
  | blanks
  /-- Characters other than blanks, where these are kept. -/
  | text
  | unknown
  | endOfFile
deriving DecidableEq, Repr

/-- Tokens that end a line. -/
def TokenKind.endsLine : TokenKind → Bool
  | newline | endOfFile => true
  | _ => false

/-- Tokens behind the code of a line. -/
def TokenKind.endsCode : TokenKind → Bool
  | newline | commentStart | endOfFile => true
  | _ => false

/-- How messages name the kind of a token. -/
def TokenKind.description : TokenKind → String
  | register _ => "register"
  | number _ => "number"
  | name => "identifier"
  | directive => "directive"
  | comma => "`,`"
  | colon => "`:`"
  | parenOpen => "`(`"
  | parenClose => "`)`"
  | bracketOpen => "`[`"
  | bracketClose => "`]`"
  | operator op => "`" ++ op.text ++ "`"
  | newline => "end of line"
  | commentStart => "comment"
  | blanks => "whitespace"
  | text => "text"
  | unknown => "unknown token"
  | endOfFile => "end of file"

/-- A token, its characters and its place. -/
structure Token where
  kind : TokenKind
  chars : List Char
  span : Span
deriving DecidableEq, Repr

def Token.text (t : Token) : String := String.ofList t.chars

/-- The first token of a text and what follows it. -/
structure Lexeme where
  kind : TokenKind
  chars : List Char
  rest : List Char
deriving Repr

namespace Lexeme

/-- A token of one character. -/
def single (kind : TokenKind) (c : Char) (cs : List Char) : Lexeme := ⟨kind, [c], cs⟩

/-- A token that goes on as long as its characters belong to a class. -/
def run (kind : TokenKind) (p : Char → Bool) (c : Char) (cs : List Char) : Lexeme :=
  ⟨kind, c :: cs.takeWhile p, cs.dropWhile p⟩

/-- An operator of two characters if `second` follows, else one of one character. -/
def pair (second : Char) (double single : TokenKind) (c : Char) : List Char → Lexeme
  | d :: cs => if d = second then ⟨double, [c, d], cs⟩ else ⟨single, [c], d :: cs⟩
  | [] => ⟨single, [c], []⟩

/-- A register, or a name that starts with `v`. -/
def registerOrName (c : Char) (cs : List Char) : Lexeme :=
  match cs with
  | d :: rest =>
      match Numeral.digit? 16 d with
      | some n =>
          if (rest.head?.any isNamePart) then run .name isNamePart c cs
          else ⟨.register n.toUInt8, [c, d], rest⟩
      | none => run .name isNamePart c cs
  | [] => run .name isNamePart c cs

/-- A hexadecimal number after its `0`, or a decimal one. -/
def zero (c : Char) (cs : List Char) : Lexeme :=
  match cs with
  | d :: rest =>
      if d = 'x' ∨ d = 'X' then
        ⟨.number .hexadecimal, c :: d :: rest.takeWhile isNamePart, rest.dropWhile isNamePart⟩
      else run (.number .decimal) isNamePart c cs
  | [] => run (.number .decimal) isNamePart c cs

/-- A binary number after its `%`, or the remainder operator. -/
def percent (c : Char) (cs : List Char) : Lexeme :=
  let isBit := fun d : Char => d = '0' || d = '1'
  let l := run (.number .binary) isBit c cs
  if 1 < l.chars.length ∧ ¬ l.rest.head?.any isNamePart then l else single (.operator .rem) c cs

/-- A directive, or a dot on its own. -/
def dot (c : Char) (cs : List Char) : Lexeme :=
  let l := run .directive isNamePart c cs
  if 1 < l.chars.length then l else single .unknown c cs

/-- An order relation or a shift, each marked by the character in front. -/
def angle (relation orEqual shift : Operator) (c : Char) : List Char → Lexeme
  | d :: cs =>
      if d = c then ⟨.operator shift, [c, d], cs⟩
      else if d = '=' then ⟨.operator orEqual, [c, d], cs⟩
      else ⟨.operator relation, [c], d :: cs⟩
  | [] => ⟨.operator relation, [c], []⟩

/-- The token that starts with `c` in front of `cs`. -/
def scan (c : Char) (cs : List Char) : Lexeme :=
  match c with
  | '\n' => single .newline c cs
  | ';' => single .commentStart c cs
  | ',' => single .comma c cs
  | ':' => single .colon c cs
  | '(' => single .parenOpen c cs
  | ')' => single .parenClose c cs
  | '[' => single .bracketOpen c cs
  | ']' => single .bracketClose c cs
  | '|' => pair '|' (.operator .logicalOr) (.operator .bitOr) c cs
  | '&' => pair '&' (.operator .logicalAnd) (.operator .bitAnd) c cs
  | '=' => pair '=' (.operator .eq) .unknown c cs
  | '!' => pair '=' (.operator .ne) (.operator .not) c cs
  | '<' => angle .lt .le .shl c cs
  | '>' => angle .gt .ge .shr c cs
  | '^' => single (.operator .bitXor) c cs
  | '+' => single (.operator .add) c cs
  | '-' => single (.operator .sub) c cs
  | '*' => single (.operator .mul) c cs
  | '/' => single (.operator .div) c cs
  | '~' => single (.operator .complement) c cs
  | '%' => percent c cs
  | '.' => dot c cs
  | '0' => zero c cs
  | 'v' => registerOrName c cs
  | 'V' => registerOrName c cs
  | _ =>
      if c.isDigit then run (.number .decimal) isNamePart c cs
      else if isNameStart c then run .name isNamePart c cs
      else single .unknown c cs

/-- The token that starts with `c` where blanks are kept: a newline, blanks, or anything else. -/
def scanText (c : Char) (cs : List Char) : Lexeme :=
  if c = '\n' then single .newline c cs
  else if isBlank c then run .blanks isBlank c cs
  else run .text (fun d => d ≠ '\n' ∧ ¬ isBlank d) c cs

end Lexeme

/-- All tokens of a text that starts at an offset; the first `skip` characters belong to a token
read before. -/
def tokensFrom (skip offset : Nat) : List Char → List Token
  | [] => []
  | c :: cs =>
      match skip with
      | skip + 1 => tokensFrom skip (offset + c.utf8Size) cs
      | 0 =>
          if isBlank c then tokensFrom 0 (offset + c.utf8Size) cs
          else
            let l := Lexeme.scan c cs
            ⟨l.kind, l.chars, ⟨offset, byteLength l.chars⟩⟩ ::
              tokensFrom (l.chars.length - 1) (offset + c.utf8Size) cs

/-- All tokens of a source text. -/
def tokenize (source : String) : List Token := tokensFrom 0 0 source.toList

end Chip8.Asm
