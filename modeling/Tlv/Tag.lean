/-! # Tags

A tag is a class and a number. Both together select how contents are read: `[UNIVERSAL 4]` is an
OCTET STRING, while `[CONTEXT 4]` means what the enclosing type says it means. Whether an
encoding is primitive or constructed is no part of the tag; see `Identifier`.
-/

namespace Tlv

inductive TagClass where
  | universal
  | application
  | context
  | privateUse
  deriving DecidableEq, Repr, Inhabited

namespace TagClass

def all : List TagClass := [.universal, .application, .context, .privateUse]

/-- The class in bits 8 and 7 of an identifier octet, the other bits clear. -/
def bits : TagClass → UInt8
  | .universal => 0x00
  | .application => 0x40
  | .context => 0x80
  | .privateUse => 0xC0

/-- The class of an identifier octet, from its two high bits. -/
def ofIdentifier (b : UInt8) : TagClass :=
  if b < 0x40 then .universal
  else if b < 0x80 then .application
  else if b < 0xC0 then .context
  else .privateUse

/-- The class whose bits are exactly `raw`. -/
def ofBits? (raw : UInt8) : Option TagClass :=
  all.find? (·.bits == raw)

def text : TagClass → String
  | .universal => "UNIVERSAL"
  | .application => "APPLICATION"
  | .context => "CONTEXT"
  | .privateUse => "PRIVATE"

def ofText? (text : String) : Option TagClass :=
  all.find? (·.text == text)

/-- The text of a raw class octet, which need not be a class. -/
def rawText (raw : UInt8) : String :=
  match ofBits? raw with
  | some c => c.text
  | none => s!"UNKNOWN({raw.toNat})"

end TagClass

structure Tag where
  cls : TagClass
  number : UInt32
  deriving DecidableEq, Repr, Inhabited

namespace Tag

def universal (number : UInt32) : Tag := ⟨.universal, number⟩

def context (number : UInt32) : Tag := ⟨.context, number⟩

def endOfContents : Tag := universal 0

/-- Text such as `[CONTEXT 3]`. -/
def text (t : Tag) : String :=
  s!"[{t.cls.text} {t.number.toNat}]"

def rawText (raw : UInt8) (number : UInt32) : String :=
  s!"[{TagClass.rawText raw} {number.toNat}]"

end Tag

end Tlv
