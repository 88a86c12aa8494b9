import Tlv.Value.Contents

/-! # The table of universal types

The value of contents is made by the entry that a table has for their tag number. An entry may lack
a constructor for one of the forms of contents. Constructors are told the number that they are
called for, and those of strings look up by it what kind of string they make.
-/

namespace Tlv

/-- The kind of string that the number must stand for. -/
def StringType.expectNumber (number : UInt32) : Result StringType :=
  match ofNumber? number with
  | some k => .ok k
  | none => .error (.schema (.notString number))

theorem StringType.expectNumber_number (k : StringType) : expectNumber k.number = .ok k := by
  rw [expectNumber, ofNumber?_number]

structure TypeEntry where
  name : String
  number : UInt32
  primitive : Option (UInt32 → Rule → Octets → Result Value)
  constructed : Option (UInt32 → Rule → List Value → Result Value)

namespace TypeEntry

/-- The value that the constructor for the form of the contents makes. -/
def construct (e : TypeEntry) (rule : Rule) : Contents → Result Value
  | .primitive s =>
    match e.primitive with
    | some build => build e.number rule s
    | none => .error (.malformed (.mustBeConstructed e.name))
  | .constructed vs =>
    match e.constructed with
    | some build => build e.number rule vs
    | none => .error (.malformed (.mustBePrimitive e.name))

def expectSegmentedStrings (number : UInt32) (rule : Rule) : Result Unit :=
  if rule.segmentedStrings then .ok ()
  else .error (.malformed (.segmentsForbidden (.universal number) rule))

def octetSegments (number : UInt32) (rule : Rule) (vs : List Value) : Result Octets := do
  expectSegmentedStrings number rule
  (joinOctets vs).mapError .malformed

def bitStringSegments (number : UInt32) (rule : Rule) (vs : List Value) : Result Value := do
  expectSegmentedStrings number rule
  let bs ← (bitSegments vs).mapError .malformed
  let b ← (BitString.join bs).mapError .malformed
  return .bitString b

def stringPrimitive (number : UInt32) (_ : Rule) (s : Octets) : Result Value := do
  let k ← StringType.expectNumber number
  return .string ⟨k, s⟩

def stringSegments (number : UInt32) (rule : Rule) (vs : List Value) : Result Value := do
  let k ← StringType.expectNumber number
  let s ← octetSegments number rule vs
  return .string ⟨k, s⟩

section

variable (u : UniversalType)

def primitiveOnly (build : Rule → Octets → Except Malformation Value) : TypeEntry where
  name := u.name
  number := u.number
  primitive := some fun _ rule s => (build rule s).mapError .malformed
  constructed := none

def constructedOnly (build : List Value → Value) : TypeEntry where
  name := u.name
  number := u.number
  primitive := none
  constructed := some fun _ _ vs => .ok (build vs)

def eitherForm (primitive : UInt32 → Rule → Octets → Result Value)
    (constructed : UInt32 → Rule → List Value → Result Value) : TypeEntry where
  name := u.name
  number := u.number
  primitive := some primitive
  constructed := some constructed

end

end TypeEntry

open TypeEntry in
def UniversalType.entry (u : UniversalType) : TypeEntry :=
  match u with
  | boolean => primitiveOnly u fun rule s => (booleanOfContents rule s).map .boolean
  | integer => primitiveOnly u fun _ s => (Integer.ofContents u.name s).map .integer
  | bitString => eitherForm u
    (fun _ rule s => ((BitString.ofContents rule s).map .bitString).mapError .malformed)
    bitStringSegments
  | octetString => eitherForm u (fun _ _ s => .ok (.octetString s))
    fun number rule vs => (octetSegments number rule vs).map .octetString
  | null => primitiveOnly u fun _ s => if s = [] then .ok .null else .error .nullContents
  | oid => primitiveOnly u fun _ s => (Oid.ofContents s).map .oid
  | enumerated => primitiveOnly u fun _ s => (Integer.ofContents u.name s).map .enumerated
  | sequence => constructedOnly u .sequence
  | set => constructedOnly u .set
  | string _ => eitherForm u stringPrimitive stringSegments

namespace TypeEntry

def all : List TypeEntry := UniversalType.all.map UniversalType.entry

def ofNumber? (number : UInt32) : Option TypeEntry :=
  all.find? (·.number == number)

theorem ofNumber?_eq (number : UInt32) :
    ofNumber? number = (UniversalType.ofNumber? number).map UniversalType.entry := by
  have hnumber (u : UniversalType) : u.entry.number = u.number := by cases u <;> rfl
  simp only [ofNumber?, all, List.find?_map, UniversalType.ofNumber?, Function.comp_def, hnumber]

theorem ofNumber?_number (u : UniversalType) : ofNumber? u.number = some u.entry := by
  rw [ofNumber?_eq, u.ofNumber?_number]
  rfl

section

variable (u : UniversalType) (rule : Rule) (vs : List Value)

theorem octetSegments_map (f : Octets → Value) :
    (octetSegments u.number rule vs).map f =
      (u.ofSegments rule ((joinOctets vs).map f)).mapError .malformed := by
  rw [octetSegments, expectSegmentedStrings, UniversalType.ofSegments]
  split
  · cases joinOctets vs <;> rfl
  · rfl

theorem bitStringSegments_eq :
    bitStringSegments UniversalType.bitString.number rule vs =
      (UniversalType.bitString.ofElements rule vs).mapError .malformed := by
  rw [bitStringSegments, expectSegmentedStrings, UniversalType.ofElements,
    UniversalType.ofSegments]
  split
  · cases bitSegments vs with
    | error e => rfl
    | ok bs =>
      change Value.bitString <$> (BitString.join bs).mapError Error.malformed =
        (Value.bitString <$> BitString.join bs).mapError Error.malformed
      cases BitString.join bs <;> rfl
  · rfl

/-- Contents alone can be at fault, since a kind of string is found again by its number. -/
theorem construct_entry (c : Contents) :
    u.entry.construct rule c = (u.ofContents rule c).mapError .malformed := by
  cases c with
  | primitive s =>
    cases u with
    | string k =>
      have hk := k.expectNumber_number
      change stringPrimitive k.number rule s = _
      rw [stringPrimitive, hk]
      rfl
    | _ => rfl
  | constructed vs =>
    cases u with
    | bitString => exact bitStringSegments_eq rule vs
    | octetString => exact octetSegments_map .octetString rule vs .octetString
    | string k =>
      have hk := k.expectNumber_number
      rw [UniversalType.ofContents, UniversalType.ofElements, ← octetSegments_map]
      change stringSegments k.number rule vs = _
      rw [stringSegments, hk]
      rfl
    | _ => rfl

end

end TypeEntry

/-- The value of contents under a tag, made by the table. -/
def Value.construct (tag : Tag) (h : tag ≠ .endOfContents) (rule : Rule) (contents : Contents) :
    Result Value :=
  if hc : tag.cls = .universal then
    match hu : TypeEntry.ofNumber? tag.number with
    | some e => e.construct rule contents
    | none =>
      .ok (.unknown ⟨tag.number, by simpa [TypeEntry.ofNumber?_eq] using hu,
        fun h0 => h (by cases tag; simp_all [Tag.endOfContents, Tag.universal])⟩ contents)
  else .ok (.tagged (.raw tag rule contents))

theorem Value.construct_eq (tag : Tag) (h : tag ≠ .endOfContents) (rule : Rule) (c : Contents) :
    construct tag h rule c = (ofContents tag h rule c).mapError .malformed := by
  unfold construct ofContents
  split
  · split
    case h_1 e he =>
      rw [TypeEntry.ofNumber?_eq] at he
      obtain ⟨u, hu, rfl⟩ := Option.map_eq_some_iff.1 he
      split
      case h_1 u' hu' =>
        cases hu.symm.trans hu'
        exact TypeEntry.construct_entry u rule c
      case h_2 hu' => cases hu.symm.trans hu'
    case h_2 he =>
      rw [TypeEntry.ofNumber?_eq, Option.map_eq_none_iff] at he
      split
      case h_1 u hu => cases he.symm.trans hu
      case h_2 => rfl
  · rfl

theorem Value.construct_eq_ok_iff {tag : Tag} {h : tag ≠ .endOfContents} {rule : Rule}
    {c : Contents} {v : Value} :
    construct tag h rule c = .ok v ↔ ofContents tag h rule c = .ok v := by
  rw [construct_eq]
  cases ofContents tag h rule c with
  | error cause => exact ⟨nofun, nofun⟩
  | ok w => exact ⟨fun hw => congrArg _ (Except.ok.inj hw), fun hw => congrArg _ (Except.ok.inj hw)⟩

end Tlv
