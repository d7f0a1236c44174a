import Chip8.Asm.Cursor
import Chip8.Asm.Span

/-! # Names

* `Identifier` is a name that the program gives to an address, a number or a register: a letter or
  underscore, then letters, digits and underscores.
* `Keyword` is one of the words reserved for operands. Letter case matters in names and not in
  keywords. -/

namespace Chip8.Asm

/-- Whether the characters form a name. -/
def isIdentifier : List Char → Bool
  | [] => false
  | c :: cs => isNameStart c && cs.all isNamePart

/-- A name. -/
structure Identifier where
  chars : List Char
  valid : isIdentifier chars = true
deriving DecidableEq, Repr

namespace Identifier

/-- The name with the given characters, if they form one. -/
def ofChars? (cs : List Char) : Option Identifier :=
  if h : isIdentifier cs = true then some ⟨cs, h⟩ else none

def text (i : Identifier) : String := String.ofList i.chars

theorem ofChars?_chars (i : Identifier) : ofChars? i.chars = some i := by
  simp [ofChars?, i.valid]

theorem chars_of_ofChars? {cs : List Char} {i : Identifier} (h : ofChars? cs = some i) :
    i.chars = cs := by
  unfold ofChars? at h
  split at h
  · cases h
    rfl
  · cases h

end Identifier

/-- A word reserved for operands. -/
inductive Keyword where
  /-- The index register. -/
  | index
  /-- The memory behind the index. -/
  | indexMemory
  /-- The delay timer. -/
  | delay
  /-- The sound timer. -/
  | sound
  /-- The keyboard. -/
  | key
  /-- The glyph of a digit. -/
  | glyph
  /-- The decimal digits of a number. -/
  | decimal
deriving DecidableEq, Repr

namespace Keyword

def chars : Keyword → List Char
  | index => ['I']
  | indexMemory => ['[', 'I', ']']
  | delay => ['D', 'T']
  | sound => ['S', 'T']
  | key => ['K']
  | glyph => ['F']
  | decimal => ['B']

def text (k : Keyword) : String := String.ofList k.chars

/-- The keyword that is written as one word in any letter case. -/
def ofWord? (cs : List Char) : Option Keyword :=
  match cs.map Char.toUpper with
  | ['I'] => some index
  | ['D', 'T'] => some delay
  | ['S', 'T'] => some sound
  | ['K'] => some key
  | ['F'] => some glyph
  | ['B'] => some decimal
  | _ => none

/-- Every keyword but the bracketed one is a word. -/
theorem ofWord?_chars {k : Keyword} (h : k ≠ indexMemory) : ofWord? k.chars = some k := by
  cases k <;> first | rfl | exact absurd rfl h

end Keyword

end Chip8.Asm
