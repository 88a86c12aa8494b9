import Tlv.Schema
import Tlv.Fields

/-! # Extensions

```text
Extensions ::= SEQUENCE SIZE (1..MAX) OF Extension

Extension  ::= SEQUENCE {
    extnID      OBJECT IDENTIFIER,
    critical    BOOLEAN DEFAULT FALSE,
    extnValue   OCTET STRING }
```

The extensions of a certificate keep their order, and no identifier occurs twice. An empty block
is accepted, since such blocks are met in practice.
-/

namespace Tlv.Certificate

structure Extension where
  id : Oid
  critical : Bool
  /-- The encoding of what the extension holds. -/
  value : Octets
  deriving DecidableEq

namespace Extension

/-- What the extension holds. -/
def innerValue (e : Extension) : Result Value :=
  match Value.ofBer e.value with
  | .ok v => .ok v
  | .error reason => .error (.unreadableExtension e.id.text reason)

def fields : FieldParser Extension := do
  let id ← FieldParser.next UniversalSchema.oid.ofValue
  let critical ← FieldParser.next? UniversalSchema.boolean.optional
  let value ← FieldParser.next UniversalSchema.octetString.ofValue
  return { id, critical := critical.getD false, value }

def parse (elements : List Value) : Result Extension :=
  if elements.length < 2 ∨ 3 < elements.length then
    .error (.malformed (.extensionSize elements.length))
  else fields.parse elements

/-- The default, FALSE, is left out. -/
def toValue (e : Extension) : Value :=
  .sequence (.oid e.id :: (if e.critical then [.boolean true] else []) ++ [.octetString e.value])

def schema : Schema Extension := .ofSequence "Extension" parse

end Extension

/-- Extensions in the order of their encoding. -/
structure Extensions where
  items : List Extension
  distinct : (items.map Extension.id).Nodup

namespace Extensions

def empty : Extensions := ⟨[], List.nodup_nil⟩

def insert (xs : Extensions) (e : Extension) : Result Extensions :=
  if h : e.id ∈ xs.items.map Extension.id then .error (.repeatedExtension e.id.text)
  else
    .ok ⟨xs.items ++ [e], by
      rw [List.map_append, List.nodup_append]
      refine ⟨xs.distinct, by simp, fun a ha b hb => ?_⟩
      obtain rfl : b = e.id := by simpa using hb
      exact fun hab => h (hab ▸ ha)⟩

def ofList (es : List Extension) : Result Extensions := es.foldlM insert empty

/-- Reads the elements one by one; a repeated identifier is found before later elements are. -/
def parse (elements : List Value) : Result Extensions :=
  elements.foldlM (fun xs v => do xs.insert (← Extension.schema.ofValue v)) empty

def schema : Schema Extensions := .ofSequence "Extensions" parse

def ofTagged (isExplicit : Bool) (t : Tagged) : Result Extensions := do
  parse (← UniversalSchema.sequence.ofTagged isExplicit t)

def length (xs : Extensions) : Nat := xs.items.length

def find? (xs : Extensions) (id : Oid) : Option Extension :=
  xs.items.find? (·.id == id)

/-- What the extension with this identifier holds, if there is one. -/
def innerValue? (xs : Extensions) (id : Oid) : Result (Option Value) :=
  match xs.find? id with
  | some e => e.innerValue.map some
  | none => .ok none

def ids (xs : Extensions) : List Oid := xs.items.map (·.id)

def criticalIds (xs : Extensions) : List Oid :=
  (xs.items.filter (·.critical)).map (·.id)

def nonCriticalIds (xs : Extensions) : List Oid :=
  (xs.items.filter (!·.critical)).map (·.id)

def hasCritical (xs : Extensions) : Bool := xs.items.any (·.critical)

/-- Both hold the same extensions, in whatever order. -/
def sameItems (xs ys : Extensions) : Bool :=
  xs.length == ys.length && xs.items.all fun e => ys.find? e.id == some e

def toValue (xs : Extensions) : Value := .sequence (xs.items.map Extension.toValue)

end Extensions

end Tlv.Certificate
