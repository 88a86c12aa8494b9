import Tlv.Encoding
import Tlv.Value.Basic

/-! # Encodings of values

The encoding of a value under a rule. Constructed values have indefinite length where the rule
allows it, and SET elements are sorted where it asks for that. A tag put on explicitly wraps the
encoding of the base, one put on implicitly replaces its tag.
-/

namespace Tlv

mutual

def Value.encoding (rule : Rule) : Value → Encoding
  | .boolean b => .primitive UniversalType.boolean.tag [if b then 0xFF else 0x00]
  | .integer n => .primitive UniversalType.integer.tag n.octets
  | .bitString b => .primitive UniversalType.bitString.tag (b.contentsUnder rule)
  | .octetString s => .primitive UniversalType.octetString.tag s
  | .null => .primitive UniversalType.null.tag []
  | .oid id => .primitive UniversalType.oid.tag id.octets
  | .enumerated n => .primitive UniversalType.enumerated.tag n.octets
  | .string s => .primitive (UniversalType.string s.kind).tag s.octets
  | .sequence vs =>
    .constructed UniversalType.sequence.tag rule.indefiniteLengths (Value.encodings rule vs)
  | .set vs =>
    if rule.sortedSets then .sorted UniversalType.set.tag false (Value.encodings rule vs)
    else .constructed UniversalType.set.tag rule.indefiniteLengths (Value.encodings rule vs)
  | .tagged t => t.encoding rule
  | .unknown n c => c.encoding rule (.universal n.number)

def Tagged.encoding (rule : Rule) : Tagged → Encoding
  | .explicit tag base => .constructed tag rule.indefiniteLengths [base.encoding rule]
  | .implicit tag base => (base.encoding rule).withTag tag
  | .raw tag _ c => c.encoding rule tag

/-- The encoding of contents under a tag. -/
def Contents.encoding (rule : Rule) (tag : Tag) : Contents → Encoding
  | .primitive s => .primitive tag s
  | .constructed vs => .constructed tag rule.indefiniteLengths (Value.encodings rule vs)

def Value.encodings (rule : Rule) : List Value → List Encoding
  | [] => []
  | v :: vs => v.encoding rule :: Value.encodings rule vs

end

namespace Value

def octets (rule : Rule) (v : Value) : Octets := (v.encoding rule).octets

def width (rule : Rule) (v : Value) : Nat := (v.encoding rule).width

def der (v : Value) : Octets := v.octets .der

end Value

/-- The DER contents of a tagged object, without its identifier and length octets. -/
def Tagged.derContents (t : Tagged) : Octets := (t.encoding .der).contents

end Tlv
