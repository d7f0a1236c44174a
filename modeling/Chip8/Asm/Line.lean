import Chip8.Asm.Token

/-! # Source lines

A source text is a sequence of lines. A line is code up to its first `;` and a comment behind it.

* `linesFrom` splits a text; every newline ends a line, and what follows the last newline is a line
  that the end of the file ends.
* `Line.tokens` are the tokens of the code, `Line.stop` is the token that ends the code: the start
  of the comment, the newline or the end of the file. -/

namespace Chip8.Asm

/-- A source line without the newline that ends it. -/
structure Line where
  /-- The place of the first character. -/
  offset : Nat
  chars : List Char
  /-- Whether a newline ends the line; else the file ends. -/
  terminated : Bool
deriving DecidableEq, Repr

/-- The lines of a text that starts at an offset. -/
def linesFrom (offset : Nat) : List Char → List Line
  | [] => [⟨offset, [], false⟩]
  | c :: cs =>
      if c = '\n' then ⟨offset, [], true⟩ :: linesFrom (offset + c.utf8Size) cs
      else
        match linesFrom (offset + c.utf8Size) cs with
        | l :: ls => { l with offset := offset, chars := c :: l.chars } :: ls
        | [] => []

/-- The lines of a source text. -/
def lines (source : String) : List Line := linesFrom 0 source.toList

namespace Line

/-- What stands in front of the comment. -/
def code (l : Line) : List Char := l.chars.takeWhile (· ≠ ';')

/-- What stands behind the `;`. -/
def comment? (l : Line) : Option (List Char) :=
  match l.chars.dropWhile (· ≠ ';') with
  | [] => none
  | _ :: cs => some cs

def tokens (l : Line) : List Token := tokensFrom 0 l.offset l.code

/-- The place behind the last character. -/
def endOffset (l : Line) : Nat := l.offset + byteLength l.chars

/-- The newline or the end of the file. -/
def terminator (l : Line) : Token :=
  if l.terminated then ⟨.newline, ['\n'], ⟨l.endOffset, 1⟩⟩
  else ⟨.endOfFile, [], ⟨l.endOffset, 0⟩⟩

/-- The place of the `;`, or of the end of a line that has none. -/
def codeEnd (l : Line) : Nat := l.offset + byteLength l.code

/-- The token that ends the code. -/
def stop (l : Line) : Token :=
  match l.comment? with
  | some _ => ⟨.commentStart, [';'], ⟨l.codeEnd, 1⟩⟩
  | none => l.terminator

/-- The place of the text of the comment, without the blanks around it. -/
def commentSpan? (l : Line) : Option Span :=
  l.comment?.map fun cs =>
    let body := cs.dropWhile isBlank
    let text := (body.reverse.dropWhile isBlank).reverse
    if text.isEmpty then ⟨l.codeEnd + 1, 0⟩
    else ⟨l.codeEnd + 1 + byteLength (cs.takeWhile isBlank), byteLength text⟩

end Line

/-- There is at least one line. -/
theorem linesFrom_ne_nil (offset : Nat) (cs : List Char) : linesFrom offset cs ≠ [] := by
  induction cs generalizing offset with
  | nil => simp [linesFrom]
  | cons c cs ih =>
      rw [linesFrom]
      split
      · simp
      · split
        · simp
        · rename_i h
          exact absurd h (ih _)

theorem linesFrom_last {offset : Nat} {cs : List Char} (hcs : ∀ c ∈ cs, c ≠ '\n') :
    linesFrom offset cs = [⟨offset, cs, false⟩] := by
  induction cs generalizing offset with
  | nil => rfl
  | cons c cs ih =>
      rw [linesFrom, if_neg (hcs c (List.mem_cons_self ..)),
        ih fun d hd => hcs d (List.mem_cons_of_mem _ hd)]

theorem linesFrom_newline {offset : Nat} {cs : List Char} (hcs : ∀ c ∈ cs, c ≠ '\n')
    (rest : List Char) :
    linesFrom offset (cs ++ '\n' :: rest) =
      ⟨offset, cs, true⟩ :: linesFrom (offset + byteLength cs + '\n'.utf8Size) rest := by
  induction cs generalizing offset with
  | nil => rw [List.nil_append, linesFrom, if_pos rfl, byteLength_nil, Nat.add_zero]
  | cons c cs ih =>
      rw [List.cons_append, linesFrom, if_neg (hcs c (List.mem_cons_self ..)),
        ih fun d hd => hcs d (List.mem_cons_of_mem _ hd), byteLength_cons]
      simp only [Nat.add_assoc]

end Chip8.Asm
