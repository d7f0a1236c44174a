import Chip8.Asm.Span

/-! # Cursor

A place in a source text from which characters are taken.

* `isBlank`, `isNameStart` and `isNamePart` are the classes of characters that tokens are made of;
  all three are classes of ASCII characters.
* `Cursor.rest` is what has not been taken yet; taking never goes back, `moveTo` may. -/

namespace Chip8.Asm

/-- Blanks separate tokens and never end a line. -/
def isBlank (c : Char) : Bool := c = ' ' || c = '\t' || c = '\r'

/-- A character that a name can start with. -/
def isNameStart (c : Char) : Bool := c.isAlpha || c = '_'

/-- A character that a name can go on with. -/
def isNamePart (c : Char) : Bool := c.isAlphanum || c = '_'

theorem isNamePart_of_isNameStart {c : Char} (h : isNameStart c = true) : isNamePart c = true := by
  unfold isNameStart at h
  unfold isNamePart Char.isAlphanum
  simp only [Bool.or_eq_true] at h ⊢
  exact h.imp_left Or.inl

/-- A place in a source text. -/
structure Cursor where
  source : List Char
  offset : Nat
deriving Repr

namespace Cursor

/-- The start of a text. -/
def ofText (source : String) : Cursor := ⟨source.toList, 0⟩

/-- What has not been taken yet. -/
def rest (c : Cursor) : List Char := dropBytes c.offset c.source

def atEnd (c : Cursor) : Bool := byteLength c.source ≤ c.offset

/-- The next character. -/
def first (c : Cursor) : Option Char := c.rest.head?

/-- The character after the next one. -/
def second (c : Cursor) : Option Char := c.rest.tail.head?

/-- Go to an offset. -/
def moveTo (c : Cursor) (offset : Nat) : Cursor := { c with offset := offset }

/-- Go on behind characters that come next. -/
def advance (c : Cursor) (taken : List Char) : Cursor := c.moveTo (c.offset + byteLength taken)

/-- Take the next character. -/
def take? (c : Cursor) : Option Char × Cursor :=
  match c.first with
  | some x => (some x, c.advance [x])
  | none => (none, c)

/-- Take characters as long as they belong to a class; the answer counts them. -/
def takeWhile (c : Cursor) (p : Char → Bool) : Nat × Cursor :=
  let taken := c.rest.takeWhile p
  (taken.length, c.advance taken)

/-- The text between two offsets. -/
def slice (c : Cursor) (start stop : Nat) : List Char :=
  takeBytes (stop - start) (dropBytes start c.source)

@[simp] theorem offset_advance (c : Cursor) (taken : List Char) :
    (c.advance taken).offset = c.offset + byteLength taken := rfl

end Cursor

end Chip8.Asm
