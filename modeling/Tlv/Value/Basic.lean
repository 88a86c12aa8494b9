import Tlv.BitString
import Tlv.Identifier
import Tlv.Integer
import Tlv.Oid
import Tlv.UniversalType

/-! # Values

A value is what a unit stands for. Universal types have constructors of their own. A tagged
object wraps a value under a tag of its own: built by a program, it knows its base and whether the
tag is explicit or implicit; read from octets, it keeps the contents until a declaration says how
to read them. Universal units of unknown type are kept as their contents.
-/

namespace Tlv

mutual

inductive Value where
  | boolean (b : Bool)
  | integer (n : Integer)
  | bitString (b : BitString)
  | octetString (octets : Octets)
  | null
  | oid (id : Oid)
  | enumerated (n : Integer)
  | string (s : CharString)
  | sequence (elements : List Value)
  | set (elements : List Value)
  | tagged (object : Tagged)
  | unknown (number : UnassignedNumber) (contents : Contents)

/-- A value under a tag that does not tell its type. -/
inductive Tagged where
  /-- The tag stands before the complete encoding of the base. -/
  | explicit (tag : Tag) (base : Value)
  /-- The tag takes the place of the base's own. -/
  | implicit (tag : Tag) (base : Value)
  /-- Contents as read under `rule`, which decides how they may be interpreted. -/
  | raw (tag : Tag) (rule : Rule) (contents : Contents)

/-- What stands behind the length octets of a unit. -/
inductive Contents where
  | primitive (octets : Octets)
  | constructed (elements : List Value)

end

namespace Contents

def isConstructed : Contents → Bool
  | primitive _ => false
  | constructed _ => true

end Contents

namespace Tagged

def tag : Tagged → Tag
  | explicit tag _ | implicit tag _ | raw tag _ _ => tag

end Tagged

mutual

/-- The tag of the encoding of a value, and whether it is constructed. -/
def Value.identifier : Value → Identifier
  | .boolean _ => ⟨UniversalType.boolean.tag, false⟩
  | .integer _ => ⟨UniversalType.integer.tag, false⟩
  | .bitString _ => ⟨UniversalType.bitString.tag, false⟩
  | .octetString _ => ⟨UniversalType.octetString.tag, false⟩
  | .null => ⟨UniversalType.null.tag, false⟩
  | .oid _ => ⟨UniversalType.oid.tag, false⟩
  | .enumerated _ => ⟨UniversalType.enumerated.tag, false⟩
  | .string s => ⟨(UniversalType.string s.kind).tag, false⟩
  | .sequence _ => ⟨UniversalType.sequence.tag, true⟩
  | .set _ => ⟨UniversalType.set.tag, true⟩
  | .tagged t => ⟨t.tag, t.isConstructed⟩
  | .unknown n c => ⟨.universal n.number, c.isConstructed⟩

/-- An explicit tag always has constructed contents, an implicit one those of its base. -/
def Tagged.isConstructed : Tagged → Bool
  | .explicit _ _ => true
  | .implicit _ base => base.identifier.constructed
  | .raw _ _ contents => contents.isConstructed

end

namespace Value

def tag (v : Value) : Tag := v.identifier.tag

/-- The name of the type in messages. -/
def typeName : Value → String
  | boolean _ => UniversalType.boolean.name
  | integer _ => UniversalType.integer.name
  | bitString _ => UniversalType.bitString.name
  | octetString _ => UniversalType.octetString.name
  | null => UniversalType.null.name
  | oid _ => UniversalType.oid.name
  | enumerated _ => UniversalType.enumerated.name
  | string s => s.kind.name
  | sequence _ => UniversalType.sequence.name
  | set _ => UniversalType.set.name
  | tagged _ => "tagged object"
  | unknown _ _ => "unknown"

def isNull : Value → Bool
  | null => true
  | _ => false

end Value

namespace Tagged

def identifier (t : Tagged) : Identifier := ⟨t.tag, t.isConstructed⟩

/-- The object was read from octets. -/
def isRaw : Tagged → Bool
  | raw _ _ _ => true
  | _ => false

/-- The tag could be explicit. Contents that were read leave it open when they are one unit. -/
def mayBeExplicit : Tagged → Bool
  | explicit _ _ => true
  | raw _ _ (.constructed [_]) => true
  | _ => false

end Tagged

end Tlv
