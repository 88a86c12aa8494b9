/-! # Decimal numbers in text

Reads the numbers of dotted identifiers and of two-digit years: decimal digits, of which there
is at least one, after an optional plus sign. Leading zeros are allowed, anything else is not.
-/

namespace Tlv.Decimal

/-- Takes in one more digit; `none` if the character is no digit. -/
def push (n : Nat) (c : Char) : Option Nat :=
  if c.isDigit then some (n * 10 + (c.toNat - '0'.toNat)) else none

/-- The number that the digits spell, with or without a plus sign. -/
def digits? (cs : List Char) : Option Nat :=
  match cs with
  | [] => none
  | _ => cs.foldlM push 0

/-- Reads a number below `bound`. -/
def read? (bound : Nat) (cs : List Char) : Option Nat :=
  (digits? (if cs.head? = some '+' then cs.drop 1 else cs)).filter (· < bound)

def write (n : Nat) : List Char := Nat.toDigits 10 n

end Tlv.Decimal
