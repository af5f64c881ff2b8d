/-
**Decimal numerals.**

Integers are written with ASCII digits, most significant first, any number of leading zeros
included, after an optional sign.  The readers are bound to a range and say why a text is refused:
reading goes from left to right, and the first character that is no digit, or that carries the
value out of the range, decides.

Main definitions:

* `NumeralError` — why a text is refused;
* `Text.readDigits` — a bounded value, digit by digit;
* `Text.readNat64`, `Text.readCell` — an unsigned and a signed integer of 64 bits.
-/

import IntcodeMachine.Cell

set_option relaxedAutoImplicit false
set_option autoImplicit false

namespace IntcodeMachine

/-- The reasons why a text is refused as an integer. -/
inductive NumeralError where
  /-- There is no character. -/
  | empty
  /-- A character is no digit, or there is nothing but a sign. -/
  | invalidDigit
  /-- The value is above the range. -/
  | tooLarge
  /-- The value is below the range. -/
  | tooSmall
deriving DecidableEq

namespace NumeralError

/-- The words for a reason. -/
def message : NumeralError → String
  | empty => "cannot parse integer from empty string"
  | invalidDigit => "invalid digit found in string"
  | tooLarge => "number too large to fit in target type"
  | tooSmall => "number too small to fit in target type"

end NumeralError

namespace Text

/-- Reads digits onto the value `n` read so far, up to `limit`; the fault for going further is
`beyond`. -/
def readDigits (limit : Nat) (beyond : NumeralError) : Nat → List Char → Except NumeralError Nat
  | n, [] => .ok n
  | n, c :: cs =>
      if c.isDigit then
        let next := 10 * n + (c.toNat - '0'.toNat)
        if next ≤ limit then readDigits limit beyond next cs else .error beyond
      else .error .invalidDigit

/-- Reads what follows the sign: at least one digit, up to `limit`. -/
def readMagnitude (limit : Nat) (beyond : NumeralError) (cs : List Char) :
    Except NumeralError Nat :=
  if cs.isEmpty then .error .invalidDigit else readDigits limit beyond 0 cs

/-- Reads an unsigned integer of 64 bits without a sign. -/
def readUnsigned (cs : List Char) : Except NumeralError Nat :=
  readMagnitude 18446744073709551615 .tooLarge cs

/-- Reads an unsigned integer of 64 bits, with an optional plus sign. -/
def readNat64 : List Char → Except NumeralError Nat
  | [] => .error .empty
  | '+' :: cs => readUnsigned cs
  | cs => readUnsigned cs

/-- Reads a cell that is not negative, without a sign. -/
def readPositive (cs : List Char) : Except NumeralError Cell :=
  (readMagnitude 9223372036854775807 .tooLarge cs).map fun (n : Nat) => Int64.ofInt n

/-- Reads a cell whose minus sign has been read. -/
def readNegative (cs : List Char) : Except NumeralError Cell :=
  (readMagnitude 9223372036854775808 .tooSmall cs).map fun (n : Nat) => Int64.ofInt (-n)

/-- Reads a cell, with an optional sign. -/
def readCell : List Char → Except NumeralError Cell
  | [] => .error .empty
  | '-' :: cs => readNegative cs
  | '+' :: cs => readPositive cs
  | cs => readPositive cs

end Text

end IntcodeMachine
