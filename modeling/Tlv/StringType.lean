import Tlv.Text.Utf8
import Tlv.Text.Utf16
import Tlv.Text.Utf32

/-! # Character strings

There are twelve kinds of character string. A kind has a tag number, an alphabet and a coding of
text in octets. Text is checked against the alphabet when it is encoded; octets are taken as they
come, and read as text only by the coding.
-/

namespace Tlv

inductive StringType where
  | utf8
  | numeric
  | printable
  | t61
  | ia5
  | utcTime
  | generalizedTime
  | graphic
  | visible
  | general
  | universal
  | bmp
  deriving DecidableEq, Repr

namespace StringType

def all : List StringType :=
  [.utf8, .numeric, .printable, .t61, .ia5, .utcTime, .generalizedTime, .graphic, .visible,
    .general, .universal, .bmp]

theorem mem_all (k : StringType) : k ∈ all := by
  cases k <;> decide

def number : StringType → UInt32
  | utf8 => 12
  | numeric => 18
  | printable => 19
  | t61 => 20
  | ia5 => 22
  | utcTime => 23
  | generalizedTime => 24
  | graphic => 25
  | visible => 26
  | general => 27
  | universal => 28
  | bmp => 30

def ofNumber? (number : UInt32) : Option StringType :=
  all.find? (·.number == number)

theorem ofNumber?_number (k : StringType) : ofNumber? k.number = some k := by
  cases k <;> decide

def name : StringType → String
  | utf8 => "UTF8String"
  | numeric => "NumericString"
  | printable => "PrintableString"
  | t61 => "T61String"
  | ia5 => "IA5String"
  | utcTime => "UTCTime"
  | generalizedTime => "GeneralizedTime"
  | graphic => "GraphicString"
  | visible => "VisibleString"
  | general => "GeneralString"
  | universal => "UniversalString"
  | bmp => "BMPString"

def ofName? (text : String) : Option StringType :=
  all.find? (·.name == text)

def printablePunctuation : List Char :=
  [' ', '\'', '(', ')', '+', ',', '-', '.', '/', ':', '=', '?']

/-- The alphabet of the kind. -/
def admits (k : StringType) (c : Char) : Bool :=
  match k with
  | utf8 | universal => true
  | bmp => c.toNat ≤ 0xFFFF
  | t61 | graphic | general => c.toNat ≤ 0xFF
  | ia5 => c.toNat < 0x80
  | visible | utcTime | generalizedTime => ' ' ≤ c && c ≤ '~'
  | numeric => c = ' ' || c.isDigit
  | printable => c.isAlphanum || printablePunctuation.contains c

/-- The octets of characters in the alphabet. Most kinds write the number of a character in one
octet. -/
def encode (k : StringType) (cs : List Char) : Octets :=
  match k with
  | utf8 => Utf8.encode cs
  | bmp => Utf16.encode cs
  | universal => Utf32.encode cs
  | _ => cs.map fun c => UInt8.ofNat c.toNat

def decode (k : StringType) (s : Octets) : Except Malformation (List Char) :=
  match k with
  | utf8 => Utf8.decode s
  | bmp => Utf16.decode s
  | universal => Utf32.decode s
  | _ => .ok (s.map fun b => Char.ofNat b.toNat)

end StringType

/-- A character string of any kind, as its contents octets. -/
structure CharString where
  kind : StringType
  octets : Octets
  deriving DecidableEq, Repr

namespace CharString

/-- The string of a text whose characters are all in the alphabet. -/
def ofText (kind : StringType) (text : String) : Result CharString :=
  match text.toList.find? fun c => !kind.admits c with
  | some c => .error (.invalidArgument (.character c kind.name))
  | none => .ok ⟨kind, kind.encode text.toList⟩

def text (s : CharString) : Result String :=
  match s.kind.decode s.octets with
  | .ok cs => .ok (String.ofList cs)
  | .error e => .error (.malformed e)

/-- The text, or the octets in hexadecimal if they spell none. -/
def display (s : CharString) : String :=
  match s.text with
  | .ok text => text
  | .error _ => "#" ++ Octets.hex s.octets

end CharString

end Tlv
