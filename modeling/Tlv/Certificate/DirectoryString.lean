import Tlv.Choice

/-! # Directory strings

```text
DirectoryString ::= CHOICE {
    teletexString       TeletexString,
    printableString     PrintableString,
    universalString     UniversalString,
    utf8String          UTF8String,
    bmpString           BMPString }
```
-/

namespace Tlv.Certificate

/-- A directory string as its contents octets. -/
inductive DirectoryString where
  | teletex (octets : Octets)
  | printable (octets : Octets)
  | universal (octets : Octets)
  | utf8 (octets : Octets)
  | bmp (octets : Octets)
  deriving DecidableEq

namespace DirectoryString

def string : DirectoryString → CharString
  | teletex s => ⟨.t61, s⟩
  | printable s => ⟨.printable, s⟩
  | universal s => ⟨.universal, s⟩
  | utf8 s => ⟨.utf8, s⟩
  | bmp s => ⟨.bmp, s⟩

/-- The alternative of the strings of one kind. -/
def alternative (kind : StringType) (build : Octets → DirectoryString) :
    Value → Result (Option DirectoryString) :=
  Choice.alternative (UniversalSchema.string kind).toSchema fun s => build s.octets

def choice : Choice DirectoryString where
  typeName := "DirectoryString"
  alternatives := [alternative .t61 teletex, alternative .printable printable,
    alternative .universal universal, alternative .utf8 utf8, alternative .bmp bmp]

/-- The directory string of a text, as a UTF8String. -/
def ofText (text : String) : Result DirectoryString :=
  (CharString.ofText .utf8 text).map fun s => .utf8 s.octets

def toValue (d : DirectoryString) : Value := .string d.string

def text (d : DirectoryString) : Result String := d.string.text

def display (d : DirectoryString) : String := d.string.display

end DirectoryString

end Tlv.Certificate
