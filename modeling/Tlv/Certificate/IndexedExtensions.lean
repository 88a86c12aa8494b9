import Mathlib.Data.List.Nodup
import Tlv.Certificate.Extension

/-! # Extensions in two containers

Lookups by identifier go to a map, while the order of the extensions is kept in a list of their
identifiers. Both grow by one entry with each addition, and every other operation reads one of them
or follows the list into the map.
-/

namespace Tlv.Certificate

instance : Hashable Oid := ⟨fun id => hash id.octets⟩

structure IndexedExtensions where
  ordering : List Oid
  index : Std.HashMap Oid Extension

namespace IndexedExtensions

def empty : IndexedExtensions := ⟨[], ∅⟩

/-- Adds an extension to both containers, unless the map has one with its identifier. -/
def insert (xs : IndexedExtensions) (e : Extension) : Result IndexedExtensions :=
  if xs.index.contains e.id then .error (.repeatedExtension e.id.text)
  else .ok ⟨xs.ordering ++ [e.id], xs.index.insert e.id e⟩

def ofList (es : List Extension) : Result IndexedExtensions := es.foldlM insert empty

def parse (elements : List Value) : Result IndexedExtensions :=
  elements.foldlM (fun xs v => do xs.insert (← Extension.schema.ofValue v)) empty

def schema : Schema IndexedExtensions := .ofSequence "Extensions" parse

def ofTagged (isExplicit : Bool) (t : Tagged) : Result IndexedExtensions := do
  parse (← UniversalSchema.sequence.ofTagged isExplicit t)

def length (xs : IndexedExtensions) : Nat := xs.ordering.length

def ids (xs : IndexedExtensions) : List Oid := xs.ordering

def find? (xs : IndexedExtensions) (id : Oid) : Option Extension := xs.index[id]?

/-- The extensions in the order of the list, as far as the map has them. -/
def items (xs : IndexedExtensions) : List Extension := xs.ordering.filterMap xs.find?

def idsWhere (xs : IndexedExtensions) (critical : Bool) : List Oid :=
  (xs.items.filter (·.critical == critical)).map (·.id)

def criticalIds (xs : IndexedExtensions) : List Oid := xs.idsWhere true

def nonCriticalIds (xs : IndexedExtensions) : List Oid := xs.idsWhere false

def hasCritical (xs : IndexedExtensions) : Bool := xs.items.any (·.critical)

def equivalent (xs ys : IndexedExtensions) : Bool := xs.index == ys.index

def toValue (xs : IndexedExtensions) : Value := .sequence (xs.items.map Extension.toValue)

end IndexedExtensions

end Tlv.Certificate
