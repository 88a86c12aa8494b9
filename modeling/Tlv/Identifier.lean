import Tlv.Error
import Tlv.Numeral.Base128

/-! # Identifier octets

The first octets of a unit give its tag and say whether its contents are primitive or
constructed. Bits 8 and 7 of the first octet are the class, bit 6 is set on constructed
encodings, and the other five hold the number if it is below 31. Otherwise they are all set and
the number follows in base 128.
-/

namespace Tlv

structure Identifier where
  tag : Tag
  constructed : Bool
  deriving DecidableEq, Repr

namespace Identifier

/-- The first octet, with `low` in its five low bits. -/
def firstOctet (i : Identifier) (low : Nat) : UInt8 :=
  UInt8.ofNat (i.tag.cls.bits.toNat + (if i.constructed then 32 else 0) + low)

def octets (i : Identifier) : Octets :=
  if i.tag.number < 31 then [i.firstOctet i.tag.number.toNat]
  else i.firstOctet 31 :: Base128.octets i.tag.number.toNat

def width (i : Identifier) : Nat :=
  if i.tag.number < 31 then 1 else 1 + Base128.width i.tag.number.toNat

/-- Reads the groups of a high tag number after `acc` has been read. A number that another group
would push past 32 bits is refused before the group is taken. -/
def readNumber (acc : Nat) : (s : Octets) → Except Malformation (Nat × Rest s)
  | [] => .error .incompleteTagNumber
  | b :: s =>
    if acc < UInt32.size / 128 then
      let number := acc * 128 + Base128.bits b
      if Base128.continues b then
        match readNumber number s with
        | .error e => .error e
        | .ok (n, ⟨t, h⟩) => .ok (n, ⟨t, Octets.length_lt_cons_of_lt b h⟩)
      else .ok (number, ⟨s, Octets.length_lt_cons b s⟩)
    else .error .tagNumberTooLarge

/-- Reads the high form that follows a first octet of class `cls`. Numbers below 31 have a
shorter form, which DER insists on. -/
def readHighForm (rule : Rule) (cls : TagClass) (s : Octets) :
    Except Malformation (Tag × Rest s) :=
  if s.head? = some 0x80 then .error .zeroLeadingGroup
  else
    match readNumber 0 s with
    | .error e => .error e
    | .ok (n, rest) =>
      let tag : Tag := ⟨cls, UInt32.ofNat n⟩
      if n < 31 && rule.minimalForms then .error (.highTagNumberForm tag rule)
      else .ok (tag, rest)

def read (rule : Rule) : (s : Octets) → Except Malformation (Identifier × Rest s)
  | [] => .error .missingIdentifier
  | b :: s =>
    let cls := TagClass.ofIdentifier b
    let constructed := b.toNat / 32 % 2 == 1
    let low := b.toNat % 32
    if low < 31 then
      .ok (⟨⟨cls, UInt32.ofNat low⟩, constructed⟩, ⟨s, Octets.length_lt_cons b s⟩)
    else
      match readHighForm rule cls s with
      | .error e => .error e
      | .ok (tag, ⟨t, h⟩) => .ok (⟨tag, constructed⟩, ⟨t, Octets.length_lt_cons_of_lt b h⟩)

end Identifier

end Tlv
