import Tlv.Value.Encoding

/-! # Equality of values

Values are equal when they stand for the same thing, however they were built or read. Unused bits
do not count, nor does the order of SET elements, and tagged objects are compared by their tags
and DER contents, since the contents may not have been interpreted yet.
-/

namespace Tlv

/-- The DER octets of the elements in ascending order. -/
def Value.sortedDer (vs : List Value) : List Octets :=
  (vs.map Value.der).mergeSort Octets.le

def Tagged.beq (t u : Tagged) : Bool :=
  t.identifier == u.identifier && t.derContents == u.derContents

mutual

def Value.beq : Value → Value → Bool
  | .boolean a, .boolean b => a == b
  | .integer a, .integer b => a == b
  | .bitString a, .bitString b => a == b
  | .octetString a, .octetString b => a == b
  | .null, .null => true
  | .oid a, .oid b => a == b
  | .enumerated a, .enumerated b => a == b
  | .string a, .string b => a == b
  | .sequence vs, .sequence ws => Value.beqAll vs ws
  | .set vs, .set ws => Value.sortedDer vs == Value.sortedDer ws
  | .tagged t, .tagged u => t.beq u
  | .unknown n c, .unknown m d => n == m && c.beq d
  | _, _ => false

def Contents.beq : Contents → Contents → Bool
  | .primitive s, .primitive t => s == t
  | .constructed vs, .constructed ws => Value.beqAll vs ws
  | _, _ => false

def Value.beqAll : List Value → List Value → Bool
  | [], [] => true
  | v :: vs, w :: ws => v.beq w && Value.beqAll vs ws
  | _, _ => false

end

instance : BEq Value := ⟨Value.beq⟩

instance : BEq Tagged := ⟨Tagged.beq⟩

namespace Value

/-- The positions of the values that equal no earlier one. -/
def firstOccurrences (vs : List Value) : List Nat :=
  (vs.zipIdx.foldl
    (fun seen v => if seen.any (·.1 == v.1) then seen else v :: seen) []).reverse.map (·.2)

end Value

end Tlv
