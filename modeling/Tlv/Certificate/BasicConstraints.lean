import Tlv.Schema
import Tlv.Fields

/-! # Basic constraints

```text
BasicConstraints ::= SEQUENCE {
    cA                      BOOLEAN DEFAULT FALSE,
    pathLenConstraint       INTEGER (0..MAX) OPTIONAL }
```
-/

namespace Tlv.Certificate

structure BasicConstraints where
  ca : Bool
  pathLength : Option Integer
  nonneg : ∀ n ∈ pathLength, n.isNegative = false
  deriving DecidableEq

namespace BasicConstraints

/-- The constraints of a certificate that issues no others. -/
def endEntity : BasicConstraints := ⟨false, none, nofun⟩

/-- The constraints of an authority, with the number of authorities that may stand below it. -/
def authority (pathLength : Option UInt32) : BasicConstraints :=
  ⟨true, pathLength.map fun n => .ofMagnitude (BigEndian.octets n.toNat), by
    intro n hn
    obtain ⟨m, -, rfl⟩ := Option.map_eq_some_iff.1 hn
    exact Integer.isNegative_ofMagnitude _⟩

def fields : FieldParser (Bool × Option Integer) := do
  let ca ← FieldParser.next? UniversalSchema.boolean.optional
  let pathLength ← FieldParser.next? UniversalSchema.integer.optional
  return (ca.getD false, pathLength)

/-- Reads the elements; the sign of the path length is checked last. -/
def parse (elements : List Value) : Result BasicConstraints := do
  let (ca, pathLength) ← fields.parse elements
  if h : ∀ n ∈ pathLength, n.isNegative = false then .ok ⟨ca, pathLength, h⟩
  else .error (.malformed .negativePathLength)

/-- The default, FALSE, is left out. -/
def toValue (c : BasicConstraints) : Value :=
  .sequence ((if c.ca then [.boolean true] else []) ++ c.pathLength.toList.map .integer)

def schema : Schema BasicConstraints :=
  .ofSequence "BasicConstraints" parse

end BasicConstraints

end Tlv.Certificate
