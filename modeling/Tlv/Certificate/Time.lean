import Tlv.Choice
import Tlv.Text.Decimal

/-! # Times

```text
Time ::= CHOICE { utcTime UTCTime, generalTime GeneralizedTime }
```

A UTCTime has a year of two digits, which stands for one between 1950 and 2049.
-/

namespace Tlv.Certificate

inductive Time where
  | utc (octets : Octets)
  | generalized (octets : Octets)
  deriving DecidableEq

namespace Time

def string : Time → CharString
  | utc s => ⟨.utcTime, s⟩
  | generalized s => ⟨.generalizedTime, s⟩

def choice : Choice Time where
  typeName := "Time"
  alternatives := [
    Choice.alternative (UniversalSchema.string .utcTime).toSchema fun s => .utc s.octets,
    Choice.alternative (UniversalSchema.string .generalizedTime).toSchema
      fun s => .generalized s.octets]

def toValue (t : Time) : Value := .string t.string

def text (t : Time) : Result String := t.string.text

/-- The number in the first two characters of a text. -/
def shortYear? (text : String) : Option Nat :=
  match text.toList with
  | a :: b :: _ => Decimal.read? 100 [a, b]
  | _ => none

/-- The text with a year of four digits. -/
def fullYearText (t : Time) : Result String := do
  let text ← t.text
  match t with
  | generalized _ => .ok text
  | utc _ =>
    match shortYear? text with
    | some year => .ok ((if year < 50 then "20" else "19") ++ text)
    | none => .error (.malformed (.invalidUtcTime text))

def display (t : Time) : String := t.string.display

end Time

end Tlv.Certificate
