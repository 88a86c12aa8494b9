import Tlv.Error
import Tlv.Numeral.BigEndian

/-! # UTF-32, big-endian

A character is its number in four octets.
-/

namespace Tlv.Utf32

/-- The numbers spelled by groups of four octets; up to three octets at the end are dropped. -/
def numbers : Octets → List Nat
  | a :: b :: c :: d :: s => BigEndian.value [a, b, c, d] :: numbers s
  | _ => []

/-- The character of a number that is one. -/
def ofNumber (n : Nat) : Except Malformation Char :=
  if n.isValidChar then .ok (Char.ofNat n)
  else .error (.invalidCodePoint (String.ofList ((Nat.toDigits 16 n).map Char.toUpper)))

def decode (s : Octets) : Except Malformation (List Char) :=
  if s.length % 4 = 0 then (numbers s).mapM ofNumber else .error .raggedUtf32

def encode (cs : List Char) : Octets :=
  cs.flatMap fun c => BigEndian.fixed 4 c.toNat

end Tlv.Utf32
