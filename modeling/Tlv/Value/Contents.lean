import Tlv.Value.Basic

/-! # From contents to values

What a unit's contents stand for is settled by its tag. A universal type reads them by its own
grammar; contents under other tags are kept for later. The same readings serve contents met under
their own tag and contents whose tag was replaced by implicit tagging.
-/

namespace Tlv

/-- DER writes TRUE as `FF`; the other rules take any octet but zero. -/
def booleanOfContents (rule : Rule) : Octets → Except Malformation Bool
  | [b] =>
    if b = 0x00 then .ok false
    else if b ≠ 0xFF ∧ rule = .der then .error (.booleanOctet (Octets.upperHex [b]))
    else .ok true
  | s => .error (.booleanLength s.length)

/-- The octets of a constructed string, whose segments are OCTET STRINGs. -/
def joinOctets : List Value → Except Malformation Octets
  | [] => .ok []
  | .octetString s :: vs => (joinOctets vs).map (s ++ ·)
  | v :: _ => .error (.stringSegment v.typeName)

/-- The segments of a constructed BIT STRING. -/
def bitSegments : List Value → Except Malformation (List BitString)
  | [] => .ok []
  | .bitString b :: vs => (bitSegments vs).map (b :: ·)
  | v :: _ => .error (.bitStringSegment v.typeName)

namespace UniversalType

def ofPrimitive (u : UniversalType) (rule : Rule) (s : Octets) : Except Malformation Value :=
  match u with
  | boolean => (booleanOfContents rule s).map .boolean
  | integer => (Integer.ofContents u.name s).map .integer
  | bitString => (BitString.ofContents rule s).map .bitString
  | octetString => .ok (.octetString s)
  | null => if s = [] then .ok .null else .error .nullContents
  | oid => (Oid.ofContents s).map .oid
  | enumerated => (Integer.ofContents u.name s).map .enumerated
  | sequence | set => .error (.mustBeConstructed u.name)
  | string k => .ok (.string ⟨k, s⟩)

/-- Segments are joined only where the rule allows them. -/
def ofSegments (u : UniversalType) (rule : Rule) (joined : Except Malformation Value) :
    Except Malformation Value :=
  if rule.segmentedStrings then joined else .error (.segmentsForbidden u.tag rule)

def ofElements (u : UniversalType) (rule : Rule) (vs : List Value) : Except Malformation Value :=
  match u with
  | bitString => u.ofSegments rule do return .bitString (← BitString.join (← bitSegments vs))
  | octetString => u.ofSegments rule ((joinOctets vs).map .octetString)
  | string k => u.ofSegments rule ((joinOctets vs).map fun s => .string ⟨k, s⟩)
  | sequence => .ok (.sequence vs)
  | set => .ok (.set vs)
  | _ => .error (.mustBePrimitive u.name)

def ofContents (u : UniversalType) (rule : Rule) : Contents → Except Malformation Value
  | .primitive s => u.ofPrimitive rule s
  | .constructed vs => u.ofElements rule vs

end UniversalType

/-- The value of contents under a tag. -/
def Value.ofContents (tag : Tag) (h : tag ≠ .endOfContents) (rule : Rule) (contents : Contents) :
    Except Malformation Value :=
  if hc : tag.cls = .universal then
    match hu : UniversalType.ofNumber? tag.number with
    | some u => u.ofContents rule contents
    | none =>
      .ok (.unknown ⟨tag.number, hu, fun h0 => h (by cases tag; simp_all [Tag.endOfContents,
        Tag.universal])⟩ contents)
  else .ok (.tagged (.raw tag rule contents))

/-- The value itself, if it has the universal tag `number`. -/
def Value.expectUniversal (number : UInt32) (v : Value) : Result Value :=
  if v.tag = .universal number then .ok v else .error (.wrongTag (.universal number) v.tag)

end Tlv
