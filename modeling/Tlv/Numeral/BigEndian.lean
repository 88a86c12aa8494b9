import Tlv.Octets

/-! # Big-endian numbers

A list of octets spells a natural number in base 256, most significant octet first. Long-form
lengths, magnitudes and code units are written this way, and words of 64 bits as eight octets.
-/

namespace Tlv.BigEndian

/-- The number that the octets spell. -/
def value (s : Octets) : Nat :=
  s.foldl (fun n b => n * 256 + b.toNat) 0

/-- The fewest octets that spell `n`; zero needs none. -/
def octets (n : Nat) : Octets :=
  if n = 0 then [] else octets (n / 256) ++ [UInt8.ofNat (n % 256)]
termination_by n
decreasing_by exact Nat.div_lt_self (by omega) (by omega)

def width (n : Nat) : Nat :=
  if n = 0 then 0 else Nat.log2 n / 8 + 1

/-- The `k` low octets of `n`. -/
def fixed : Nat → Nat → Octets
  | 0, _ => []
  | k + 1, n => UInt8.ofNat (n >>> (8 * k)) :: fixed k n

def ofWord (w : UInt64) : Octets :=
  [(w >>> 56).toUInt8, (w >>> 48).toUInt8, (w >>> 40).toUInt8, (w >>> 32).toUInt8,
    (w >>> 24).toUInt8, (w >>> 16).toUInt8, (w >>> 8).toUInt8, w.toUInt8]

theorem ofWord_ne_nil (w : UInt64) : ofWord w ≠ [] := List.cons_ne_nil _ _

/-- The word that eight octets are put together to. -/
def word (s : Octets) : UInt64 :=
  s.foldl (fun w b => w <<< 8 ||| b.toUInt64) 0

/-- The octets behind as many fill octets as make them eight. -/
def filled (fill : UInt8) (s : Octets) : Octets :=
  List.replicate (8 - s.length) fill ++ s

/-- The octets without leading zeros. -/
def significant (s : Octets) : Octets :=
  s.dropWhile (· == 0)

end Tlv.BigEndian
