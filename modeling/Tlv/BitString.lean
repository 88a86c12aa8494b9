import Tlv.Error
import Tlv.Numeral.BigEndian

/-! # Bit strings

The contents of a BIT STRING are the number of unused bits in the last data octet, and the data.
Unused bits are kept as they were read, but they are no part of the value: equality ignores them
and DER clears them.
-/

namespace Tlv

structure BitString where
  unused : Nat
  data : Octets
  unused_le : unused ≤ 7
  unused_of_nil : data = [] → unused = 0
  deriving Repr

namespace BitString

/-- The octet with its `n` low bits cleared. -/
def clearLow (n : Nat) (b : UInt8) : UInt8 :=
  UInt8.ofNat (b.toNat >>> n <<< n)

/-- Applies `f` to the last octet. -/
def mapLast (f : UInt8 → UInt8) (s : Octets) : Octets :=
  s.dropLast ++ s.getLast?.toList.map f

def cleared (b : BitString) : Octets :=
  mapLast (clearLow b.unused) b.data

def contents (b : BitString) : Octets :=
  UInt8.ofNat b.unused :: b.data

/-- The contents as `rule` writes them. -/
def contentsUnder (rule : Rule) (b : BitString) : Octets :=
  UInt8.ofNat b.unused :: if rule = .der then b.cleared else b.data

def empty : BitString := ⟨0, [], Nat.zero_le _, fun _ => rfl⟩

def ofPadded (data : Octets) (unused : Nat) : Result BitString :=
  if h : unused ≤ 7 then
    if h' : data = [] → unused = 0 then .ok ⟨unused, data, h, h'⟩
    else .error (.invalidArgument .unusedBitsWithoutData)
  else .error (.invalidArgument (.tooManyUnusedBits unused))

def ofOctets (data : Octets) : BitString := ⟨0, data, Nat.zero_le _, fun _ => rfl⟩

/-- The number of zero bits below the lowest one bit, 0 if there is none. -/
def trailingZeros (b : UInt8) : Nat :=
  ((List.range 8).find? fun n => b.toNat.testBit n).getD 0

theorem trailingZeros_le (b : UInt8) : trailingZeros b ≤ 7 := by
  unfold trailingZeros
  cases h : (List.range 8).find? fun n => b.toNat.testBit n with
  | none => exact Nat.zero_le _
  | some n => exact Nat.le_of_lt_succ (List.mem_range.1 (List.mem_of_find?_eq_some h))

/-- The bit string of a set of named bits. Bit 0 is the high bit of the first octet, which is the
low octet of `mask`; trailing zero bits are dropped. -/
def ofNamedBits (mask : Nat) : BitString :=
  let data := (BigEndian.octets mask).reverse
  match h : data.getLast? with
  | none => empty
  | some b => ⟨trailingZeros b, data, trailingZeros_le b, fun e => by rw [e] at h; cases h⟩

/-- Takes contents octets as they are. DER wants the unused bits clear. -/
def ofContents (rule : Rule) : Octets → Except Malformation BitString
  | [] => .error .emptyBitString
  | b :: data =>
    if h : b.toNat ≤ 7 then
      if h' : data = [] → b.toNat = 0 then
        let bits : BitString := ⟨b.toNat, data, h, h'⟩
        if rule = .der && bits.cleared != data then .error .nonZeroUnusedBits
        else .ok bits
      else .error .unusedBitsWithoutData
    else .error (.tooManyUnusedBits b.toNat)

/-- The first bit string followed by the second, for a first one of whole octets. -/
def append (a b : BitString) : BitString :=
  ⟨b.unused, a.data ++ b.data, b.unused_le, fun h => b.unused_of_nil (List.append_eq_nil_iff.1 h).2⟩

/-- Joins the segments of a constructed encoding; only the last may have unused bits. -/
def join : List BitString → Except Malformation BitString
  | [] => .ok empty
  | [b] => .ok b
  | a :: b :: bs =>
    if a.unused = 0 then (join (b :: bs)).map a.append else .error .paddedSegment

def octets? (b : BitString) : Option Octets :=
  if b.unused = 0 then some b.data else none

def length (b : BitString) : Nat :=
  b.data.length * 8 - b.unused

/-- The first four octets as a set of named bits. -/
def namedBits (b : BitString) : Nat :=
  BigEndian.value (b.cleared.take 4).reverse

def beq (a b : BitString) : Bool :=
  a.unused == b.unused && a.cleared == b.cleared

instance : BEq BitString := ⟨beq⟩

def display (b : BitString) : String :=
  "#" ++ Octets.hex b.contents

end BitString

end Tlv
