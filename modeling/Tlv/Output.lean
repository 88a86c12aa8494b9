import Tlv.Value.Encoding

/-! # Output

An output collects the octets of values under one rule. It can be written to a sink with limited
room, which takes as much as fits.
-/

namespace Tlv

/-- Writes octets to a sink with room for `room` of them: the outcome, and what the sink took. -/
def writeInto (room : Nat) (s : Octets) : Result Unit × Octets :=
  (if Octets.hasAtLeast s (room + 1) then .error .writeFailed else .ok (), s.take room)

structure Output where
  rule : Rule := .der
  octets : Octets := []

namespace Output

def append (o : Output) (e : Encoding) : Output := { o with octets := o.octets ++ e.octets }

def appendValue (o : Output) (v : Value) : Output := o.append (v.encoding o.rule)

def clear (o : Output) : Output := { o with octets := [] }

def length (o : Output) : Nat := o.octets.length

def writeInto (o : Output) (room : Nat) : Result Unit × Octets := Tlv.writeInto room o.octets

end Output

def Value.writeInto (rule : Rule) (room : Nat) (v : Value) : Result Unit × Octets :=
  Tlv.writeInto room (v.octets rule)

end Tlv
