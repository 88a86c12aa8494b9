import Tlv.Identifier
import Tlv.Length

/-! # Encodings

An encoding is the tree of units that a value becomes under one rule. Its octets are, for each
unit, the identifier, the length and the contents; contents of indefinite length are closed by a
marker of two zero octets. How many octets there will be is also computed without writing them.
-/

namespace Tlv

inductive Encoding where
  | primitive (tag : Tag) (contents : Octets)
  | constructed (tag : Tag) (indefinite : Bool) (elements : List Encoding)

namespace Encoding

def endMarker : Octets := [0, 0]

/-- Contents between their identifier and length octets and, if the length is indefinite, the
closing marker. -/
def frame (identifier : Identifier) (indefinite : Bool) (contents : Octets) : Octets :=
  identifier.octets ++
    if indefinite then Length.indefiniteOctet :: (contents ++ endMarker)
    else Length.octets contents.length ++ contents

mutual

def octets : Encoding → Octets
  | primitive tag contents => frame ⟨tag, false⟩ false contents
  | constructed tag indefinite elements => frame ⟨tag, true⟩ indefinite (joined elements)

def joined : List Encoding → Octets
  | [] => []
  | e :: es => e.octets ++ joined es

end

def contents : Encoding → Octets
  | primitive _ contents => contents
  | constructed _ _ elements => joined elements

def identifier : Encoding → Identifier
  | primitive tag _ => ⟨tag, false⟩
  | constructed tag _ _ => ⟨tag, true⟩

/-- The number of octets that `frame` writes around and with `count` octets of contents. -/
def framedWidth (identifier : Identifier) (indefinite : Bool) (count : Nat) : Nat :=
  identifier.width +
    if indefinite then 1 + count + 2 else Length.width count + count

mutual

def width : Encoding → Nat
  | primitive tag contents => framedWidth ⟨tag, false⟩ false contents.length
  | constructed tag indefinite elements => framedWidth ⟨tag, true⟩ indefinite (joinedWidth elements)

def joinedWidth : List Encoding → Nat
  | [] => 0
  | e :: es => e.width + joinedWidth es

end

/-- The number of octets between the length and any closing marker. -/
def contentsWidth : Encoding → Nat
  | primitive _ contents => contents.length
  | constructed _ _ elements => joinedWidth elements

/-- A constructed encoding whose elements stand in the order of their octets. -/
def sorted (tag : Tag) (indefinite : Bool) (elements : List Encoding) : Encoding :=
  constructed tag indefinite (elements.mergeSort fun a b => Octets.le a.octets b.octets)

/-- The encoding under another tag, as implicit tagging has it. -/
def withTag (tag : Tag) : Encoding → Encoding
  | primitive _ contents => primitive tag contents
  | constructed _ indefinite elements => constructed tag indefinite elements

mutual

def beq : Encoding → Encoding → Bool
  | primitive t s, primitive u r => t == u && s == r
  | constructed t i es, constructed u j ds => t == u && i == j && beqAll es ds
  | _, _ => false

def beqAll : List Encoding → List Encoding → Bool
  | [], [] => true
  | e :: es, d :: ds => e.beq d && beqAll es ds
  | _, _ => false

end

instance : BEq Encoding := ⟨beq⟩

end Encoding

end Tlv
