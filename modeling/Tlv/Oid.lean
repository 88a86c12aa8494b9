import Tlv.Oid.Contents
import Tlv.Text.Decimal

/-! # Object identifiers

An object identifier is a path of numbers, its arcs. The contents octets join the first two arcs
into one number, 40 times the first plus the second, which is why the second stays below 40 under
a first arc of 0 or 1. Each path has one spelling, so equal identifiers are equal octets.
-/

namespace Tlv

/-- An object identifier as its contents octets. -/
structure Oid where
  octets : Octets
  valid : Oid.fault? octets = none
  deriving DecidableEq, Repr

namespace Oid

def ofContents (s : Octets) : Except Malformation Oid :=
  match h : fault? s with
  | none => .ok ⟨s, h⟩
  | some e => .error e

def ofArcs : List Nat → Result Oid
  | first :: second :: rest =>
    let head := 40 * first + second
    if 2 < first then .error (.invalidArgument (.firstArc first))
    else if first < 2 && 40 ≤ second then .error (.invalidArgument (.secondArc first second))
    else if UInt64.size ≤ head then .error (.invalidArgument .arcOverflow)
    else if h : ∀ a ∈ head :: rest, a < arcBound then
      .ok ⟨(head :: rest).flatMap Base128.octets, fault?_flatMap (List.cons_ne_nil _ _) h⟩
    else .error (.invalidArgument .arcTooLarge)
  | _ => .error (.invalidArgument .tooFewArcs)

def split (sep : Char) : List Char → List (List Char)
  | [] => [[]]
  | c :: cs =>
    if c = sep then [] :: split sep cs
    else
      match split sep cs with
      | [] => [[c]]
      | part :: parts => (c :: part) :: parts

/-- One arc of a dotted text, a 64-bit number. -/
def arcOfText (text : String) (part : List Char) : Result Nat :=
  match Decimal.read? UInt64.size part with
  | some n => .ok n
  | none => .error (.invalidArgument (.arcText (String.ofList part) text))

/-- The path written as decimal numbers with dots between them. -/
def ofText (text : String) : Result Oid := do
  ofArcs (← (split '.' text.toList).mapM (arcOfText text))

/-- The path of the identifier, its first two arcs taken apart. -/
def arcs (id : Oid) : List Nat :=
  match numbers id.octets with
  | [] => []
  | n :: ns => min (n / 40) 2 :: (n - min (n / 40) 2 * 40) :: ns

def text (id : Oid) : String :=
  String.ofList (['.'].intercalate (id.arcs.map Decimal.write))

/-- The path of `id` goes on from the end of that of `stem`. -/
def isDescendantOf (id stem : Oid) : Bool :=
  stem.octets.length < id.octets.length && stem.octets.isPrefixOf id.octets

/-- The path with one more arc. -/
def child (id : Oid) (arc : Nat) : Result Oid :=
  if h : arc < arcBound then .ok ⟨id.octets ++ Base128.octets arc, fault?_append id.valid h⟩
  else .error (.invalidArgument .arcTooLarge)

def order (a b : Oid) : Ordering := Octets.order a.octets b.octets

def sort (ids : List Oid) : List Oid :=
  ids.mergeSort fun a b => Octets.le a.octets b.octets

end Oid

end Tlv
