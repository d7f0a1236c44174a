import Chip8.Text.Numeral

/-! # Shortest decimal text of single-precision numbers

A finite binary number `m · 2 ^ q` stands for every real number that rounds to it. Its shortest
decimal is the one with the fewest digits among those reals, and of several the one nearest to the
number itself.

* `Interval.of` is the interval of the reals that round to `m · 2 ^ q`. Its ends belong to it
  exactly if `m` is even, because ties go to the even neighbour.
* `shortest` tries 1, 2, … 9 digits. On each decimal grid only the two neighbours of the number can
  be the nearest points, so only these are tried.
* `text` writes a number without an exponent and without a trailing point. -/

namespace Chip8.Decimal

/-- A non-negative fraction. -/
structure Fraction where
  num : Nat
  den : Nat
deriving DecidableEq, Repr

/-- `n · b ^ k`, where `k` may be negative. -/
def Fraction.scaled (n b : Nat) (k : Int) : Fraction :=
  if 0 ≤ k then ⟨n * Nat.pow b k.toNat, 1⟩ else ⟨n, Nat.pow b (-k).toNat⟩

def Fraction.le (a b : Fraction) : Bool := a.num * b.den ≤ b.num * a.den

def Fraction.lt (a b : Fraction) : Bool := a.num * b.den < b.num * a.den

/-- The distance of two fractions. -/
def Fraction.distance (a b : Fraction) : Fraction :=
  let left := a.num * b.den
  let right := b.num * a.den
  ⟨(left - right) + (right - left), a.den * b.den⟩

/-- The reals that round to a number. -/
structure Interval where
  low : Fraction
  high : Fraction
  closed : Bool
deriving DecidableEq, Repr

/-- The reals that round to `m · 2 ^ q`. Below a power of two the numbers lie twice as close, so
there the lower end is half as far away (`narrow`). -/
def Interval.of (m : Nat) (q : Int) (narrow : Bool) : Interval where
  low := Fraction.scaled (4 * m - if narrow then 1 else 2) 2 (q - 2)
  high := Fraction.scaled (4 * m + 2) 2 (q - 2)
  closed := m % 2 = 0

def Interval.contains (i : Interval) (x : Fraction) : Bool :=
  if i.closed then i.low.le x && x.le i.high else i.low.lt x && x.lt i.high

/-- A decimal number `digits · 10 ^ exponent`. -/
structure Scientific where
  digits : Nat
  exponent : Int
deriving DecidableEq, Repr

def Scientific.value (s : Scientific) : Fraction := Fraction.scaled s.digits 10 s.exponent

/-- The exponent of the leading decimal digit of a positive fraction that is at least `10 ^ -60`. -/
def magnitude (x : Fraction) : Int :=
  if x.den ≤ x.num then ((Numeral.digits 10 (x.num / x.den)).length : Int) - 1
  else -(((List.range 60).find? fun j => x.den ≤ x.num * Nat.pow 10 j).getD 60 : Nat)

/-- The point of the grid `10 ^ k` at or below `x`. -/
def floorOn (k : Int) (x : Fraction) : Nat :=
  let step := Fraction.scaled 1 10 k
  x.num * step.den / (x.den * step.num)

/-- The neighbour of `x` on the grid `10 ^ k` that lies in the interval, the nearer one of two. -/
def neighbour? (i : Interval) (x : Fraction) (k : Int) : Option Scientific :=
  let below : Scientific := ⟨floorOn k x, k⟩
  let above : Scientific := ⟨floorOn k x + 1, k⟩
  match i.contains below.value, i.contains above.value with
  | true, true =>
      if (x.distance above.value).lt (x.distance below.value) then some above else some below
  | true, false => some below
  | false, true => some above
  | false, false => none

/-- The shortest decimal that rounds to `m · 2 ^ q`; nine digits always suffice. -/
def shortest (m : Nat) (q : Int) (narrow : Bool) : Scientific :=
  let x := Fraction.scaled m 2 q
  let i := Interval.of m q narrow
  ((List.range 9).findSome? fun (n : Nat) => neighbour? i x (magnitude x - (n : Int))).getD ⟨m, 0⟩

/-- Digits and point of a decimal, without an exponent. -/
def Scientific.text (s : Scientific) : String :=
  let ds := Numeral.digits 10 s.digits
  if 0 ≤ s.exponent then String.ofList (ds ++ List.replicate s.exponent.toNat '0')
  else
    let places := (-s.exponent).toNat
    let ds := Numeral.padded (places + 1) ds
    String.ofList (ds.take (ds.length - places) ++ '.' :: ds.drop (ds.length - places))

/-- The text of the single-precision number with the given bits. -/
def text (bits : UInt32) : String :=
  let sign := if bits.toNat < 0x80000000 then "" else "-"
  let exponent : Nat := bits.toNat / 0x800000 % 0x100
  let fraction : Nat := bits.toNat % 0x800000
  if exponent = 255 then (if fraction = 0 then sign ++ "inf" else "NaN")
  else if exponent = 0 then
    if fraction = 0 then sign ++ "0" else sign ++ (shortest fraction (-149) false).text
  else
    sign ++ (shortest (0x800000 + fraction) ((exponent : Int) - 150)
      (fraction = 0 && decide (1 < exponent))).text

end Chip8.Decimal
