/-! # Numerals

Reading and writing of numbers in positional notation.

* **Writing.** `digits b n` are the digits of `n` in base `b`, most significant first;
  `padded` fills them up with zeros to a least width; `hex`, `hexUpper` and `decimal` are the
  spellings used in messages and listings.
* **Reading.** `read` takes digits of a base from left to right and stops at the first digit that
  does not belong to the base or that carries the value past a limit (`Numeral.Fault`).
  `readSigned` also takes one leading `+`. -/

namespace Chip8.Numeral

/-! ### Writing -/

/-- The digits of `n` in base `b`, most significant first; zero is written `0`. -/
def digits (b n : Nat) : List Char := Nat.toDigits b n

/-- Fill `cs` up with zeros on the left to at least `width` characters. -/
def padded (width : Nat) (cs : List Char) : List Char :=
  List.replicate (width - cs.length) '0' ++ cs

/-- Lower-case hexadecimal with at least `width` digits. -/
def hex (width n : Nat) : String := String.ofList (padded width (digits 16 n))

/-- Upper-case hexadecimal with at least `width` digits. -/
def hexUpper (width n : Nat) : String :=
  String.ofList (padded width ((digits 16 n).map Char.toUpper))

/-- Decimal notation. -/
def decimal (n : Nat) : String := String.ofList (digits 10 n)

/-- Decimal notation of an integer, a minus sign in front of negative ones. -/
def signed (i : Int) : String :=
  if i < 0 then "-" ++ decimal i.natAbs else decimal i.natAbs

/-- `text` moved to the right end of a field of `width` characters. -/
def field (width : Nat) (text : String) : String :=
  String.ofList (List.replicate (width - text.length) ' ' ++ text.toList)

/-! ### Reading -/

/-- Why a numeral has no value. -/
inductive Fault where
  | empty
  | invalidDigit
  | tooLarge
deriving DecidableEq, Repr

/-- The wording of a fault. -/
def Fault.message : Fault → String
  | .empty => "cannot parse integer from empty string"
  | .invalidDigit => "invalid digit found in string"
  | .tooLarge => "number too large to fit in target type"

/-- The value of an ASCII digit or letter, if it is below the base. -/
def digit? (b : Nat) (c : Char) : Option Nat :=
  let value :=
    if '0' ≤ c ∧ c ≤ '9' then c.toNat - '0'.toNat
    else if 'a' ≤ c ∧ c ≤ 'z' then c.toNat - 'a'.toNat + 10
    else if 'A' ≤ c ∧ c ≤ 'Z' then c.toNat - 'A'.toNat + 10
    else b
  if value < b then some value else none

/-- Continue a numeral whose digits so far have the value `acc`. Of two faults the one of the
earlier digit is reported, and of two faults of one digit the invalid digit. -/
def readFrom (b limit acc : Nat) : List Char → Except Fault Nat
  | [] => .ok acc
  | c :: cs =>
      match digit? b c with
      | none => .error .invalidDigit
      | some d =>
          let value := acc * b + d
          if value ≤ limit then readFrom b limit value cs else .error .tooLarge

/-- The value of a numeral of at least one digit in base `b` that is at most `limit`. -/
def read (b limit : Nat) (cs : List Char) : Except Fault Nat :=
  if cs.isEmpty then .error .empty else readFrom b limit 0 cs

/-- The value of a numeral with at most one leading `+`. -/
def readSigned (b limit : Nat) : List Char → Except Fault Nat
  | '+' :: [] => .error .invalidDigit
  | '+' :: cs => read b limit cs
  | cs => read b limit cs

/-- The largest 64-bit word. -/
def wordMax : Nat := 0xFFFFFFFFFFFFFFFF

/-- A 64-bit number as users write it: decimal, or hexadecimal after `0x` or `0X`. -/
def ofUser? : List Char → Option Nat
  | '0' :: 'x' :: cs => (readSigned 16 wordMax cs).toOption
  | '0' :: 'X' :: cs => (readSigned 16 wordMax cs).toOption
  | cs => (readSigned 10 wordMax cs).toOption

theorem readFrom_le {b limit : Nat} {acc n : Nat} {cs : List Char} (hacc : acc ≤ limit)
    (h : readFrom b limit acc cs = .ok n) : n ≤ limit := by
  induction cs generalizing acc with
  | nil =>
      simp only [readFrom, Except.ok.injEq] at h
      omega
  | cons c cs ih =>
      rw [readFrom] at h
      cases hd : digit? b c with
      | none => rw [hd] at h; cases h
      | some d =>
          rw [hd] at h
          by_cases hle : acc * b + d ≤ limit
          · simp only [if_pos hle] at h
            exact ih hle h
          · simp only [if_neg hle] at h
            cases h

/-- A numeral that is read is within the limit. -/
theorem read_le {b limit n : Nat} {cs : List Char} (h : read b limit cs = .ok n) : n ≤ limit := by
  unfold read at h
  split at h
  · cases h
  · exact readFrom_le (Nat.zero_le _) h

end Chip8.Numeral
