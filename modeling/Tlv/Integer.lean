import Tlv.Error
import Tlv.Numeral.BigEndian

/-! # Integers of any size

INTEGER and ENUMERATED contents are two's complement octets, most significant first, and as few
as the number allows. An `Integer` is such a list, so equal numbers have equal octets.
-/

namespace Tlv

namespace TwosComplement

/-- An octet that only repeats the sign of the octet after it. -/
def redundant (a b : UInt8) : Bool :=
  (a == 0x00 && b < 0x80) || (a == 0xFF && 0x80 ≤ b)

/-- Lists that are not empty and have no redundant leading octets. -/
def isMinimal : Octets → Bool
  | [] => false
  | [_] => true
  | a :: b :: _ => !redundant a b

/-- Drops redundant leading octets. -/
def trim : Octets → Octets
  | a :: b :: s => if redundant a b then trim (b :: s) else a :: b :: s
  | s => s

theorem isMinimal_trim : ∀ {s : Octets}, s ≠ [] → isMinimal (trim s) = true
  | [], h => absurd rfl h
  | [a], _ => rfl
  | a :: b :: s, _ => by
    rw [trim]
    split
    · exact isMinimal_trim (List.cons_ne_nil b s)
    · simp_all [isMinimal]

def isNegative (s : Octets) : Bool :=
  match s with
  | [] => false
  | b :: _ => 0x80 ≤ b

theorem isNegative_trim : ∀ s : Octets, isNegative (trim s) = isNegative s
  | [] => rfl
  | [_] => rfl
  | a :: b :: s => by
    rw [trim]
    split
    · rename_i h
      rw [isNegative_trim (b :: s)]
      simp only [redundant, Bool.or_eq_true, Bool.and_eq_true, beq_iff_eq, decide_eq_true_eq] at h
      rcases h with ⟨rfl, h⟩ | ⟨rfl, h⟩
      · simp [isNegative, UInt8.not_le.2 h]
      · simp [isNegative, h]
    · rfl

/-- The number that the octets stand for. The sign counts as one more digit before them. -/
def value (s : Octets) : Int :=
  s.foldl (fun n b => n * 256 + b.toNat) (if isNegative s then -1 else 0)

/-- The octet that repeats the sign. -/
def signOctet (s : Octets) : UInt8 := if isNegative s then 0xFF else 0x00

/-- The fewest octets of a 64-bit number. -/
def ofInt64 (v : Int64) : Octets := trim (BigEndian.ofWord v.toUInt64)

theorem isMinimal_ofInt64 (v : Int64) : isMinimal (ofInt64 v) = true :=
  isMinimal_trim (BigEndian.ofWord_ne_nil _)

/-- The 64-bit number of octets that are filled up with their sign, unless they are too many. -/
def toInt64? (s : Octets) : Option Int64 :=
  if 8 < s.length then none
  else some (BigEndian.word (BigEndian.filled (signOctet s) s)).toInt64

end TwosComplement

open TwosComplement in
/-- An integer as its minimal two's complement octets. -/
structure Integer where
  octets : Octets
  minimal : isMinimal octets = true
  deriving DecidableEq, Repr

namespace Integer

open TwosComplement

/-- The integer that two's complement octets stand for, redundant ones dropped. -/
def ofSigned (s : Octets) : Result Integer :=
  if h : s = [] then .error (.invalidArgument .emptySignedOctets)
  else .ok ⟨trim s, isMinimal_trim h⟩

def ofMagnitude (s : Octets) : Integer :=
  ⟨trim (0x00 :: s), isMinimal_trim (List.cons_ne_nil _ _)⟩

def ofInt64 (v : Int64) : Integer := ⟨TwosComplement.ofInt64 v, isMinimal_ofInt64 v⟩

def ofUInt64 (w : UInt64) : Integer := ofMagnitude (BigEndian.ofWord w)

/-- The integer of a number that is written out, which must fit 64 bits. -/
def ofInt (v : Int) : Integer := ofInt64 (.ofInt v)

/-- Takes contents octets as they are; `typeName` is for the message. -/
def ofContents (typeName : String) (s : Octets) : Except Malformation Integer :=
  if h : isMinimal s = true then .ok ⟨s, h⟩
  else
    match s with
    | [] => .error (.emptyInteger typeName)
    | b :: _ => .error (if b = 0 then .redundantZeros typeName else .redundantOnes typeName)

def isNegative (n : Integer) : Bool := TwosComplement.isNegative n.octets

def toInt (n : Integer) : Int := TwosComplement.value n.octets

theorem isNegative_ofMagnitude (s : Octets) : (ofMagnitude s).isNegative = false :=
  isNegative_trim (0x00 :: s)

/-- The number, if it has a 64-bit two's complement form. -/
def toInt64? (n : Integer) : Option Int := (TwosComplement.toInt64? n.octets).map Int64.toInt

/-- The magnitude of a number that is not negative, without the octet that holds only the sign. -/
def magnitude? (n : Integer) : Option Octets :=
  if n.isNegative then none
  else
    match n.octets with
    | 0x00 :: b :: s => some (b :: s)
    | s => some s

/-- The number, if it is not negative and fits 64 bits. -/
def toNat64? (n : Integer) : Option Nat := do
  let s ← n.magnitude?
  if 8 < s.length then none
  else some (BigEndian.word (BigEndian.filled 0x00 s)).toNat

def hasValue (n : Integer) (v : Int) : Bool := n.toInt64? == some v

def display (n : Integer) : String :=
  match n.toInt64? with
  | some v => toString v
  | none => "0x" ++ Octets.upperHex n.octets

end Integer

/-- Octets of an ENUMERATED are kept as those of an INTEGER. -/
abbrev Enumerated := Integer

namespace Enumerated

open TwosComplement

def ofInt64 (v : Int64) : Enumerated := ⟨TwosComplement.ofInt64 v, isMinimal_ofInt64 v⟩

def toInt64? (n : Enumerated) : Option Int := (TwosComplement.toInt64? n.octets).map Int64.toInt

end Enumerated

end Tlv
