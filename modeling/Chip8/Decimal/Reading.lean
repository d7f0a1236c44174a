import Chip8.Text.Numeral

/-! # Reading floating-point numbers

A number in decimal notation: a sign, digits with at most one point among or around them, and an
exponent of ten; or the words for infinity and for what is no number, in any letter case. The value
is the 32-bit number nearest to it. -/

namespace Chip8.Decimal

/-- A sign in front of a number and what follows it. -/
def splitSign : List Char → Bool × List Char
  | '-' :: cs => (true, cs)
  | '+' :: cs => (false, cs)
  | cs => (false, cs)

/-- The value of decimal digits. -/
def digitsValue (cs : List Char) : Nat := cs.foldl (fun n c => 10 * n + (c.toNat - '0'.toNat)) 0

/-- The exponent of ten at the end of a number; there is none at the end of the text. -/
def readExponent? : List Char → Option Int
  | [] => some 0
  | c :: cs =>
      let (negative, digits) := splitSign cs
      if c.toLower = 'e' ∧ ¬ digits.isEmpty ∧ digits.all Char.isDigit then
        some (if negative then -digitsValue digits else digitsValue digits)
      else none

/-- The digits of a number without its sign, and the exponent of ten that they are scaled by. -/
def readScaled? (cs : List Char) : Option (Nat × Int) :=
  let whole := cs.takeWhile Char.isDigit
  let rest := cs.dropWhile Char.isDigit
  let (fraction, rest) := match rest with
    | '.' :: rest => (rest.takeWhile Char.isDigit, rest.dropWhile Char.isDigit)
    | rest => ([], rest)
  if whole.isEmpty ∧ fraction.isEmpty then none
  else
    (readExponent? rest).map fun exponent =>
      (digitsValue (whole ++ fraction), exponent - fraction.length)

/-- The 32-bit number nearest to a whole number scaled by a power of ten. All that is at least
`10 ^ 39` is infinite and all that is below `10 ^ -46` is zero, whatever the exponent. -/
def ofScaled (digits : Nat) (exponent : Int) : Float32 :=
  let places : Int := (Numeral.digits 10 digits).length
  if digits = 0 ∨ places + exponent ≤ -46 then 0
  else if 39 < places + exponent then 1 / 0
  else if 0 ≤ exponent then Float32.ofScientific digits false exponent.toNat
  else Float32.ofScientific digits true (-exponent).toNat

/-- The words that stand for numbers. -/
def ofWord? (cs : List Char) : Option Float32 :=
  let word := String.ofList (cs.map Char.toLower)
  if word = "inf" ∨ word = "infinity" then some (1 / 0)
  else if word = "nan" then some (0 / 0)
  else none

/-- Read a number. -/
def read? (cs : List Char) : Option Float32 :=
  let (negative, cs) := splitSign cs
  let size := match readScaled? cs with
    | some (digits, exponent) => some (ofScaled digits exponent)
    | none => ofWord? cs
  size.map fun x => if negative then -x else x

end Chip8.Decimal
