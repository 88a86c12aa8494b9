import Tlv.Error
import Tlv.Numeral.BigEndian

/-! # UTF-16, big-endian

A character is one unit of two octets, or, from `0x10000` on, a high surrogate and a low one.
-/

namespace Tlv.Utf16

/-- The units of a list of octets; an odd octet at the end is dropped. -/
def units : Octets → List Nat
  | a :: b :: s => BigEndian.value [a, b] :: units s
  | _ => []

def isSurrogate (u : Nat) : Bool := 0xD800 ≤ u && u < 0xE000

def isHigh (u : Nat) : Bool := 0xD800 ≤ u && u < 0xDC00

def isLow (u : Nat) : Bool := 0xDC00 ≤ u && u < 0xE000

/-- The characters of a list of units, in which surrogates come in pairs. -/
def ofUnits : List Nat → Except Malformation (List Char)
  | [] => .ok []
  | u :: us =>
    if !isSurrogate u then (ofUnits us).map (Char.ofNat u :: ·)
    else
      match us with
      | [] => .error .loneSurrogate
      | v :: us =>
        if isHigh u && isLow v then
          (ofUnits us).map (Char.ofNat (0x10000 + (u - 0xD800) * 0x400 + (v - 0xDC00)) :: ·)
        else .error .loneSurrogate

def decode (s : Octets) : Except Malformation (List Char) :=
  if s.length % 2 = 0 then ofUnits (units s) else .error .oddUtf16

def unitsOf (c : Char) : List Nat :=
  if c.toNat < 0x10000 then [c.toNat]
  else [0xD800 + (c.toNat - 0x10000) / 0x400, 0xDC00 + (c.toNat - 0x10000) % 0x400]

def encode (cs : List Char) : Octets :=
  cs.flatMap fun c => (unitsOf c).flatMap (BigEndian.fixed 2)

end Tlv.Utf16
