import Chip8.Asm.Token

/-! # Reading tokens one by one

A reader of tokens with room for one token given back. Blanks between tokens are skipped, or
reported as tokens of their own while they are kept, which is how the text of a comment is read.
A token given back is delivered again as it is, whether or not blanks are kept by then. -/

namespace Chip8.Asm

/-- A reader of tokens. -/
structure Lexer where
  cursor : Cursor
  /-- The token given back. -/
  pushed : Option Token
  /-- Whether blanks are tokens. -/
  keepsBlanks : Bool
deriving Repr

namespace Lexer

/-- A reader at the start of a text. -/
def ofText (source : String) : Lexer := ⟨Cursor.ofText source, none, false⟩

def keepBlanks (l : Lexer) (keep : Bool) : Lexer := { l with keepsBlanks := keep }

/-- Give a token back. -/
def unread (l : Lexer) (t : Token) : Lexer := { l with pushed := some t }

/-- The token at the place of a cursor, which is the end of file if nothing is left. -/
def readAt (keepsBlanks : Bool) (c : Cursor) : Token × Cursor :=
  match c.rest with
  | [] => (⟨.endOfFile, [], ⟨c.offset, 0⟩⟩, c)
  | x :: xs =>
      let l := if keepsBlanks then Lexeme.scanText x xs else Lexeme.scan x xs
      (⟨l.kind, l.chars, ⟨c.offset, byteLength l.chars⟩⟩, c.advance l.chars)

/-- Read the next token. -/
def next (l : Lexer) : Token × Lexer :=
  match l.pushed with
  | some t => (t, { l with pushed := none })
  | none =>
      let start := if l.keepsBlanks then l.cursor else (l.cursor.takeWhile isBlank).2
      let (t, cursor) := readAt l.keepsBlanks start
      (t, { l with cursor := cursor })

/-- Look at the next token. -/
def peek (l : Lexer) : Token × Lexer :=
  let (t, l) := l.next
  (t, l.unread t)

/-- Read all tokens in front of the end of the file, if it comes. -/
def drain (l : Lexer) : Option (List Token) := do
  let (t, l) := l.next
  if t.kind = .endOfFile then
    return []
  else
    let ts ← l |>.drain
    return t :: ts
partial_fixpoint

/-- The token that is looked at is the one that is read next. -/
theorem next_peek (l : Lexer) : (l.peek.2.next).1 = l.peek.1 := rfl

end Lexer

end Chip8.Asm
