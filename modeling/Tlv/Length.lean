import Tlv.Error
import Tlv.Numeral.BigEndian

/-! # Length octets

A length below 128 is one octet. A longer one is written in base 256 after an octet that gives
the number of digits and has bit 8 set. The octet `0x80` alone announces contents that run until
an end-of-contents marker.
-/

namespace Tlv

inductive Length where
  | definite (n : Nat)
  | indefinite
  deriving DecidableEq, Repr

namespace Length

/-- The octet that stands for an indefinite length. -/
def indefiniteOctet : UInt8 := 0x80

def octets (n : Nat) : Octets :=
  if n < 128 then [UInt8.ofNat n]
  else UInt8.ofNat (128 + (BigEndian.octets n).length) :: BigEndian.octets n

def width (n : Nat) : Nat :=
  if n < 128 then 1 else 1 + BigEndian.width n

/-- The number that the digits of a long form spell. Lengths are 64-bit numbers, and DER takes
only the shortest form. -/
def ofDigits (rule : Rule) (digits : Octets) : Except Malformation Nat :=
  let significant := (BigEndian.significant digits).length
  let n := BigEndian.value digits
  if 8 < significant then .error (.lengthTooLarge significant)
  else if rule.minimalForms && (digits.head? == some 0 || n < 128) then
    .error (.nonMinimalLength n rule)
  else .ok n

def read (rule : Rule) : (s : Octets) → Except Malformation (Length × Rest s)
  | [] => .error .missingLength
  | b :: s =>
    if b < 0x80 then .ok (.definite b.toNat, ⟨s, Octets.length_lt_cons b s⟩)
    else if b = indefiniteOctet then
      if rule.indefiniteLengths then .ok (.indefinite, ⟨s, Octets.length_lt_cons b s⟩)
      else .error (.indefiniteForbidden rule)
    else if b = 0xFF then .error .reservedLength
    else
      let count := b.toNat - 128
      if Octets.hasAtLeast s count then
        match ofDigits rule (s.take count) with
        | .error e => .error e
        | .ok n =>
          .ok (.definite n, ⟨s.drop count, Octets.length_drop_lt_cons b s count⟩)
      else .error (.truncatedLength count s.length)

end Length

end Tlv
