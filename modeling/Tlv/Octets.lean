/-! # Octets

Wire data is a list of octets. This module holds the few operations on such lists that the
whole library shares: a bounded length test, the lexicographic order that sorts SET elements,
and hexadecimal text.
-/

namespace Tlv

abbrev Octets := List UInt8

/-- What a reader leaves of its input `s`: strictly fewer octets, so that readers can loop. -/
abbrev Rest (s : Octets) := { t : Octets // t.length < s.length }

namespace Octets

theorem length_lt_cons (b : UInt8) (s : Octets) : s.length < (b :: s).length :=
  Nat.lt_succ_self _

theorem length_lt_cons_of_lt (b : UInt8) {s t : Octets} (h : t.length < s.length) :
    t.length < (b :: s).length :=
  Nat.lt_succ_of_lt h

theorem length_drop_lt_cons (b : UInt8) (s : Octets) (n : Nat) :
    (s.drop n).length < (b :: s).length := by
  rw [List.length_drop, List.length_cons]
  omega

/-- Lists of at least `n` octets. Only the first `n` are walked. -/
def hasAtLeast : Octets → Nat → Bool
  | _, 0 => true
  | [], _ + 1 => false
  | _ :: s, n + 1 => hasAtLeast s n

theorem hasAtLeast_iff {s : Octets} {n : Nat} : hasAtLeast s n = true ↔ n ≤ s.length := by
  induction s generalizing n with
  | nil => cases n <;> simp [hasAtLeast]
  | cons b s ih => cases n <;> simp [hasAtLeast, ih]

/-- The lexicographic order, in which a proper initial part comes first. -/
def le : Octets → Octets → Bool
  | [], _ => true
  | _ :: _, [] => false
  | a :: s, b :: t => a < b || (a == b && le s t)

def order (s t : Octets) : Ordering :=
  if s = t then .eq else if le s t then .lt else .gt

/-- The two hexadecimal digits of an octet, high digit first. -/
def hexDigits (b : UInt8) : List Char :=
  [Nat.digitChar (b.toNat / 16), Nat.digitChar (b.toNat % 16)]

/-- Lower-case hexadecimal text, two digits an octet and no separators. -/
def hex (s : Octets) : String :=
  String.ofList (s.flatMap hexDigits)

def upperHex (s : Octets) : String :=
  String.ofList (s.flatMap fun b => (hexDigits b).map Char.toUpper)

end Octets

end Tlv
