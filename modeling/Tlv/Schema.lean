import Tlv.Tagged.Resolution
import Tlv.Value.Reading

/-! # Schemas

A schema describes a type: its name, which values are of it, and how such a value is taken apart.
Through it the type is read from octets and, if it is universal, from tagged objects. A value of
another type is an error; it is never converted.
-/

namespace Tlv

/-- How an `α` is got from a value. -/
structure Schema (α : Type) where
  typeName : String
  recognizes : Value → Bool
  ofValue : Value → Result α

/-- A schema of the universal type with this tag number. -/
structure UniversalSchema (α : Type) extends Schema α where
  number : UInt32

/-- The forms in which a typed value is given. -/
inductive Form (α : Type) where
  | typed (a : α)
  | value (v : Value)
  | octets (s : Octets)

def wrongType {α : Type} (expected : String) (v : Value) : Result α :=
  .error (.wrongType expected v.typeName)

namespace Schema

variable {α : Type} (c : Schema α)

/-- Reads the octets as one value, which must be of the type. -/
def ofOctets (s : Octets) : Result α :=
  match Value.ofBer s with
  | .error e => .error (.unreadable c.typeName e)
  | .ok v => c.ofValue v

def ofForm : Form α → Result α
  | .typed a => .ok a
  | .value v => c.ofValue v
  | .octets s => c.ofOctets s

/-- The value as an `α`, or nothing if it is of another type. -/
def optional (v : Value) : Result (Option α) :=
  if c.recognizes v then (c.ofValue v).map some else .ok none

def map {β : Type} (f : α → β) : Schema β where
  typeName := c.typeName
  recognizes := c.recognizes
  ofValue v := (c.ofValue v).map f

/-- The schema of the values on which `view` answers. -/
def ofView (typeName : String) (view : Value → Option α) : Schema α where
  typeName
  recognizes v := (view v).isSome
  ofValue v :=
    match view v with
    | some a => .ok a
    | none => wrongType typeName v

/-- The schema of a type that is read from the elements of a SEQUENCE. -/
def ofSequence (typeName : String) (parse : List Value → Result α) : Schema α where
  typeName
  recognizes
    | .sequence _ => true
    | _ => false
  ofValue
    | .sequence vs => parse vs
    | v => wrongType typeName v

def any : Schema Value where
  typeName := "ASN.1 object"
  recognizes _ := true
  ofValue := .ok

def tagged : Schema Tagged :=
  ofView "tagged object" fun | .tagged t => some t | _ => none

/-- Character strings of every kind. -/
def string : Schema CharString :=
  ofView "string" fun | .string s => some s | _ => none

end Schema

namespace UniversalSchema

variable {α : Type}

/-- The schema of the universal type `u`, whose values `view` takes apart. -/
def ofView (u : UniversalType) (view : Value → Option α) : UniversalSchema α where
  toSchema := Schema.ofView u.name view
  number := u.number

def boolean : UniversalSchema Bool :=
  ofView .boolean fun | .boolean b => some b | _ => none

def integer : UniversalSchema Integer :=
  ofView .integer fun | .integer n => some n | _ => none

def bitString : UniversalSchema BitString :=
  ofView .bitString fun | .bitString b => some b | _ => none

def octetString : UniversalSchema Octets :=
  ofView .octetString fun | .octetString s => some s | _ => none

def null : UniversalSchema Unit :=
  ofView .null fun | .null => some () | _ => none

def oid : UniversalSchema Oid :=
  ofView .oid fun | .oid id => some id | _ => none

def enumerated : UniversalSchema Integer :=
  ofView .enumerated fun | .enumerated n => some n | _ => none

def sequence : UniversalSchema (List Value) :=
  ofView .sequence fun | .sequence vs => some vs | _ => none

/-- A SET, as its elements in the order they are kept. -/
def set : UniversalSchema (List Value) :=
  ofView .set fun | .set vs => some vs | _ => none

def string (kind : StringType) : UniversalSchema CharString :=
  ofView (.string kind) fun
    | .string s => if s.kind = kind then some s else none
    | _ => none

variable (c : UniversalSchema α)

def map {β : Type} (f : α → β) : UniversalSchema β where
  toSchema := c.toSchema.map f
  number := c.number

/-- The base of a tagged object, by the declared tagging. -/
def ofTagged (isExplicit : Bool) (t : Tagged) : Result α := do
  c.ofValue (← t.resolve isExplicit c.number)

/-- As `ofTagged`, for objects of class CONTEXT. -/
def ofContextTagged (isExplicit : Bool) (t : Tagged) : Result α := do
  c.ofTagged isExplicit (← t.expectClass .context)

end UniversalSchema

end Tlv
