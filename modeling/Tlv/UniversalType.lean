import Tlv.StringType

/-! # Universal types

The types that the UNIVERSAL class assigns to tag numbers, as far as the library knows them.
Number 0 is the end-of-contents marker and no type; the other numbers are unassigned, and values
under them are kept as they are.
-/

namespace Tlv

inductive UniversalType where
  | boolean
  | integer
  | bitString
  | octetString
  | null
  | oid
  | enumerated
  | sequence
  | set
  | string (kind : StringType)
  deriving DecidableEq, Repr

namespace UniversalType

def all : List UniversalType :=
  [.boolean, .integer, .bitString, .octetString, .null, .oid, .enumerated, .sequence, .set] ++
    StringType.all.map .string

theorem mem_all (u : UniversalType) : u ∈ all := by
  cases u with
  | string k => exact List.mem_append_right _ (List.mem_map_of_mem k.mem_all)
  | _ => decide

def number : UniversalType → UInt32
  | boolean => 1
  | integer => 2
  | bitString => 3
  | octetString => 4
  | null => 5
  | oid => 6
  | enumerated => 10
  | sequence => 16
  | set => 17
  | string k => k.number

def tag (u : UniversalType) : Tag := .universal u.number

def name : UniversalType → String
  | boolean => "BOOLEAN"
  | integer => "INTEGER"
  | bitString => "BIT STRING"
  | octetString => "OCTET STRING"
  | null => "NULL"
  | oid => "OBJECT IDENTIFIER"
  | enumerated => "ENUMERATED"
  | sequence => "SEQUENCE"
  | set => "SET"
  | string k => k.name

def ofNumber? (number : UInt32) : Option UniversalType :=
  all.find? (·.number == number)

theorem ofNumber?_number (u : UniversalType) : ofNumber? u.number = some u := by
  cases u with
  | string k => cases k <;> decide
  | _ => decide

end UniversalType

/-- A universal tag number that no known type has. -/
structure UnassignedNumber where
  number : UInt32
  unassigned : UniversalType.ofNumber? number = none
  ne_zero : number ≠ 0
  deriving DecidableEq, Repr

end Tlv
