import Chip8.Machine.Memory
import Chip8.Text.Blank

/-! # Machine configuration

The shape of a machine: memory size, screen size and load address.

* **Text.** A configuration is written as a list `key=value` separated by commas, with blanks
  ignored around pieces, keys and values, and empty pieces skipped. Pieces are read from left to
  right and the first mistake is reported (`Config.Error`).
* **Acceptance.** The resulting shape has to be one that a machine can have (`Config.check`).
* **Printing.** `Config.text` writes all four options. -/

namespace Chip8

/-- The largest memory that 16-bit addresses reach. -/
def maxMemory : Nat := 0x10000

/-- The shape of a machine. -/
structure Config where
  memorySize : Nat
  screenWidth : Nat
  screenHeight : Nat
  /-- Where programs are loaded and execution starts. -/
  loadAddress : UInt16
deriving DecidableEq, Repr

namespace Config

/-- The shape that is assumed where nothing else is said. -/
def standard : Config := ⟨4096, 64, 32, 0x200⟩

/-- Why a text is no configuration. -/
inductive Error where
  | noValue (piece : String)
  | repeated (key : String)
  | badValue (value key : String)
  | loadTooLarge (value : String)
  | unknownKey (key : String)
  | memoryTooLarge (size : Nat)
  | loadOutside (address : UInt16) (size : Nat)
  | noRoomForGlyphs
  | emptyScreen
  | raggedWidth (width : Nat)
deriving DecidableEq, Repr

def Error.message : Error → String
  | .noValue piece => "Expected `key=value`, found '" ++ piece ++ "'"
  | .repeated key => "Cannot specify option '" ++ key ++ "' twice"
  | .badValue value key => "Invalid value '" ++ value ++ "' for option '" ++ key ++ "'"
  | .loadTooLarge value => "Load address '" ++ value ++ "' does not fit 16 bits"
  | .unknownKey key => "Unknown option '" ++ key ++ "'"
  | .memoryTooLarge size =>
      "Memory size " ++ Numeral.decimal size ++ " exceeds the addressable " ++
        Numeral.decimal maxMemory
  | .loadOutside address size =>
      "Load address 0x" ++ Numeral.hex 1 address.toNat ++ " is outside of " ++
        Numeral.decimal size ++ " bytes of memory"
  | .noRoomForGlyphs => "Memory is too small to hold the glyph ROM"
  | .emptyScreen => "Screen dimensions must be non-zero"
  | .raggedWidth width =>
      "Screen width " ++ Numeral.decimal width ++ " is not a multiple of 8"

/-- Refuse shapes that no machine has. -/
def check (c : Config) : Except Error Config :=
  if maxMemory < c.memorySize then .error (.memoryTooLarge c.memorySize)
  else if c.memorySize ≤ c.loadAddress.toNat then .error (.loadOutside c.loadAddress c.memorySize)
  else if c.memorySize < glyphs.length then .error .noRoomForGlyphs
  else if c.screenWidth = 0 ∨ c.screenHeight = 0 then .error .emptyScreen
  else if c.screenWidth % 8 ≠ 0 then .error (.raggedWidth c.screenWidth)
  else .ok c

/-- The pieces of a text between its commas. -/
def pieces : List Char → List (List Char)
  | [] => [[]]
  | c :: cs =>
      if c = ',' then [] :: pieces cs
      else match pieces cs with
        | [] => [[c]]
        | p :: ps => (c :: p) :: ps

/-- Take one option over into a configuration. -/
def setOption (c : Config) (key value : List Char) (n : Nat) : Except Error Config :=
  match String.ofList key with
  | "memory" => .ok { c with memorySize := n }
  | "width" => .ok { c with screenWidth := n }
  | "height" => .ok { c with screenHeight := n }
  | "load" =>
      if n < 0x10000 then .ok { c with loadAddress := n.toUInt16 }
      else .error (.loadTooLarge (String.ofList value))
  | name => .error (.unknownKey name)

/-- Take the options of the pieces over, `seen` being the keys that were given before. -/
def setPieces (c : Config) (seen : List (List Char)) : List (List Char) → Except Error Config
  | [] => .ok c
  | p :: ps =>
      let piece := Blank.trim p
      if piece.isEmpty then c.setPieces seen ps
      else
        let key := Blank.trim (piece.takeWhile (· ≠ '='))
        match piece.dropWhile (· ≠ '=') with
        | [] => .error (.noValue (String.ofList piece))
        | _ :: rest =>
            let value := Blank.trim rest
            if key ∈ seen then .error (.repeated (String.ofList key))
            else match Numeral.ofUser? value with
              | none => .error (.badValue (String.ofList value) (String.ofList key))
              | some n => do (← c.setOption key value n).setPieces (key :: seen) ps

/-- The configuration that a text describes, standard where it is silent. -/
def parse (text : String) : Except Error Config := do
  (← standard.setPieces [] (pieces text.toList)).check

/-- All options of a configuration as a text. -/
def text (c : Config) : String :=
  "memory=" ++ Numeral.decimal c.memorySize ++ ",width=" ++ Numeral.decimal c.screenWidth ++
    ",height=" ++ Numeral.decimal c.screenHeight ++ ",load=0x" ++
    Numeral.hex 1 c.loadAddress.toNat

/-- What `check` lets pass are the shapes that a machine can have, unchanged. -/
theorem check_eq_ok_iff {c d : Config} :
    c.check = .ok d ↔ d = c ∧ c.memorySize ≤ maxMemory ∧ c.loadAddress.toNat < c.memorySize ∧
      80 ≤ c.memorySize ∧ 0 < c.screenWidth ∧ 0 < c.screenHeight ∧ c.screenWidth % 8 = 0 := by
  have hglyphs : glyphs.length = 80 := rfl
  unfold check
  rw [hglyphs]
  split
  · simp only [reduceCtorEq, false_iff]; omega
  · split
    · simp only [reduceCtorEq, false_iff]; omega
    · split
      · simp only [reduceCtorEq, false_iff]; omega
      · split
        · simp only [reduceCtorEq, false_iff]; omega
        · split
          · simp only [reduceCtorEq, false_iff]; omega
          · simp only [Except.ok.injEq]
            constructor
            · rintro rfl
              exact ⟨rfl, by omega, by omega, by omega, by omega, by omega, by omega⟩
            · rintro ⟨rfl, _⟩; rfl

end Config

end Chip8
