import Tlv.Rule
import Tlv.Tag
import Tlv.Text.Quoted

/-! # Errors

Each constructor is a cause and carries what its text shows. An error has a kind, which is what
programs branch on, and a message, which is what people read. Faults in wire data are of kind
`malformedInput` or `tagMismatch`, exceeded limits of kind `limitExceeded`; the other kinds blame
the caller.
-/

namespace Tlv

inductive ErrorKind where
  | malformedInput
  | tagMismatch
  | schemaContract
  | typeCoercion
  | duplicateField
  | invalidArgument
  | limitExceeded
  | io
  deriving DecidableEq, Repr

namespace ErrorKind

/-- What stands before the details in a message of this kind. -/
def label : ErrorKind → String
  | malformedInput => "Malformed input"
  | tagMismatch => "Tag mismatch"
  | schemaContract => "Schema contract violation"
  | typeCoercion => "Type coercion failed"
  | duplicateField => "Duplicate field"
  | invalidArgument => "Invalid argument"
  | limitExceeded => "Limit exceeded"
  | io => "I/O error"

/-- The kind blames the input rather than the caller. -/
def isMalformed : ErrorKind → Bool
  | malformedInput | tagMismatch | limitExceeded => true
  | _ => false

end ErrorKind

/-- A fault in the octets or in the structure read from them. -/
inductive Malformation where
  | missingIdentifier
  | incompleteTagNumber
  | zeroLeadingGroup
  | tagNumberTooLarge
  | highTagNumberForm (tag : Tag) (rule : Rule)

  | missingLength
  | indefiniteForbidden (rule : Rule)
  | reservedLength
  | truncatedLength (needed available : Nat)
  | lengthTooLarge (significant : Nat)
  | nonMinimalLength (length : Nat) (rule : Rule)

  | truncatedContents (tag : Tag) (declared available : Nat)
  | unexpectedEndOfContents (offset : Nat)
  | missingEndOfContents
  | indefinitePrimitive (tag : Tag)
  | trailingOctets (count : Nat)

  | mustBePrimitive (typeName : String)
  | mustBeConstructed (typeName : String)
  | segmentsForbidden (tag : Tag) (rule : Rule)
  | stringSegment (typeName : String)
  | bitStringSegment (typeName : String)
  | paddedSegment
  | booleanLength (count : Nat)
  | booleanOctet (octet : String)
  | nullContents
  | emptyInteger (typeName : String)
  | redundantZeros (typeName : String)
  | redundantOnes (typeName : String)
  | emptyBitString
  | tooManyUnusedBits (count : Nat)
  | unusedBitsWithoutData
  | nonZeroUnusedBits
  | emptyOid
  | truncatedArc
  | zeroLeadingArc
  | arcTooLong

  | invalidUtf8 (index length : Nat)
  | incompleteUtf8 (index : Nat)
  | oddUtf16
  | loneSurrogate
  | raggedUtf32
  | invalidCodePoint (digits : String)

  | notExplicit (tag : Tag)
  | notTagged (outer found : Tag)
  | missingElement (position : Nat)
  | unreadElements (count position : Nat)

  | unusedKeyBits (count : Nat)
  | negativePathLength
  | extensionSize (count : Nat)
  | invalidUtcTime (text : String)
  deriving DecidableEq, Repr

namespace Malformation

def text : Malformation → String
  | missingIdentifier => "truncated input: missing identifier octet"
  | incompleteTagNumber => "truncated input: incomplete high tag number"
  | zeroLeadingGroup => "invalid high tag number: leading zero group"
  | tagNumberTooLarge => "high tag number does not fit in 32 bits"
  | highTagNumberForm tag rule => s!"high tag number form used for {tag.text} under {rule.name}"
  | missingLength => "truncated input: missing length octet"
  | indefiniteForbidden rule => s!"indefinite length not allowed under {rule.name}"
  | reservedLength => "reserved length octet 0xFF"
  | truncatedLength needed available =>
    s!"truncated input: need {needed} length octets, have {available}"
  | lengthTooLarge significant => s!"length encoding too large: {significant} significant bytes"
  | nonMinimalLength length rule => s!"non-minimal length encoding of {length} under {rule.name}"
  | truncatedContents tag declared available =>
    s!"truncated input: {tag.text} declares {declared} content octets, {available} available"
  | unexpectedEndOfContents offset => s!"unexpected end-of-contents marker at offset {offset}"
  | missingEndOfContents => "truncated input: missing end-of-contents marker"
  | indefinitePrimitive tag => s!"indefinite length used with primitive {tag.text}"
  | trailingOctets count => s!"{count} trailing bytes after top-level value"
  | mustBePrimitive typeName => s!"{typeName} must use primitive encoding"
  | mustBeConstructed typeName => s!"{typeName} must use constructed encoding"
  | segmentsForbidden tag rule =>
    s!"constructed encoding of {tag.text} not allowed under {rule.name}"
  | stringSegment typeName => s!"unexpected {typeName} segment in constructed string"
  | bitStringSegment typeName => s!"unexpected {typeName} segment in constructed BIT STRING"
  | paddedSegment => "only the last nested BIT STRING may have padding"
  | booleanLength count => s!"BOOLEAN value should have 1 byte in it, found {count}"
  | booleanOctet octet => s!"BOOLEAN contents 0x{octet} not allowed under DER"
  | nullContents => "malformed NULL encoding encountered"
  | emptyInteger typeName => s!"malformed {typeName}: empty contents"
  | redundantZeros typeName => s!"malformed {typeName}: redundant leading 0x00"
  | redundantOnes typeName => s!"malformed {typeName}: redundant leading 0xFF"
  | emptyBitString => "truncated BIT STRING detected"
  | tooManyUnusedBits count => s!"invalid pad bits detected: {count}"
  | unusedBitsWithoutData => "zero length data with non-zero pad bits"
  | nonZeroUnusedBits => "DER BIT STRING with non-zero unused bits"
  | emptyOid => "empty OBJECT IDENTIFIER contents"
  | truncatedArc => "truncated OBJECT IDENTIFIER subidentifier"
  | zeroLeadingArc => "OBJECT IDENTIFIER subidentifier with leading zero group"
  | arcTooLong => "OBJECT IDENTIFIER subidentifier exceeds 63 bits"
  | invalidUtf8 index length =>
    s!"invalid UTF8String: invalid utf-8 sequence of {length} bytes from index {index}"
  | incompleteUtf8 index =>
    s!"invalid UTF8String: incomplete utf-8 byte sequence from index {index}"
  | oddUtf16 => "BMPString contents not a multiple of 2 octets"
  | loneSurrogate => "invalid BMPString: invalid utf-16: lone surrogate found"
  | raggedUtf32 => "UniversalString contents not a multiple of 4 octets"
  | invalidCodePoint digits => s!"invalid UniversalString code point 0x{digits}"
  | notExplicit tag => s!"object {tag.text} implicit - explicit expected"
  | notTagged outer found =>
    s!"unexpected object in {outer.text}: expected tagged object, found {found.text}"
  | missingElement position => s!"sequence too short: no element at position {position}"
  | unreadElements count position =>
    s!"unexpected elements in sequence: {count} left after position {position}"
  | unusedKeyBits count => s!"public key has {count} unused bits"
  | negativePathLength => "negative pathLenConstraint"
  | extensionSize count => s!"Bad sequence size: {count}"
  | invalidUtcTime text => s!"invalid UTCTime '{text}'"

end Malformation

/-- An argument that no value can be built from. -/
inductive Misuse where
  | emptySignedOctets
  | tooManyUnusedBits (count : Nat)
  | unusedBitsWithoutData
  | arcText (part text : String)
  | tooFewArcs
  | firstArc (first : Nat)
  | secondArc (first second : Nat)
  | arcOverflow
  | arcTooLarge
  | character (c : Char) (kindName : String)
  | zeroDepth
  | zeroContentLength
  deriving DecidableEq, Repr

namespace Misuse

def text : Misuse → String
  | emptySignedOctets => "INTEGER needs at least one octet"
  | tooManyUnusedBits count => s!"pad bits cannot be greater than 7, got {count}"
  | unusedBitsWithoutData => "zero length data with non-zero pad bits"
  | arcText part text => s!"invalid OID arc '{part}' in '{text}'"
  | tooFewArcs => "OID needs at least two arcs"
  | firstArc first => s!"first OID arc must be 0, 1 or 2, got {first}"
  | secondArc first second =>
    s!"second OID arc must be below 40 under arc {first}, got {second}"
  | arcOverflow => "OID arc too large"
  | arcTooLarge => "OID arc exceeds 63 bits"
  | character c kindName => s!"character {Quoted.char c} not allowed in {kindName}"
  | zeroDepth => "max_depth must be at least 1"
  | zeroContentLength => "max_content_length must be at least 1"

end Misuse

/-- A declaration that the object at hand cannot be read by. -/
inductive SchemaFault where
  | builtImplicit (tag : Tag)
  | builtExplicit (tag : Tag)
  | unassignedType (number : UInt32)
  | notString (number : UInt32)
  | implicitChoice (typeName : String)
  deriving DecidableEq, Repr

namespace SchemaFault

def text : SchemaFault → String
  | builtImplicit tag => s!"{tag.text} built with implicit tagging - explicit expected"
  | builtExplicit tag => s!"{tag.text} built with explicit tagging - implicit expected"
  | unassignedType number => s!"no universal type registered for tag number {number.toNat}"
  | notString number => s!"tag number {number.toNat} is not a string type"
  | implicitChoice typeName =>
    s!"Implicit tagging cannot be used with untagged choice type {typeName} (X.680 30.6, 30.8)."

end SchemaFault

/-- A limit of the reader options that the input exceeds. -/
inductive Excess where
  | contentLength (length limit : Nat)
  | depth (limit : Nat)
  deriving DecidableEq, Repr

namespace Excess

def text : Excess → String
  | contentLength length limit => s!"content length {length} exceeds {limit}"
  | depth limit => s!"nesting depth exceeds {limit}"

end Excess

inductive Error where
  | malformed (cause : Malformation)
  | unreadableExtension (id : String) (reason : Error)
  | tagMismatch (expected found : String)
  | schema (cause : SchemaFault)
  | wrongType (expected found : String)
  | unreadable (typeName : String) (reason : Error)
  | noAlternative (choice found : String)
  | repeatedExtension (id : String)
  | invalidArgument (cause : Misuse)
  | limit (cause : Excess)
  | writeFailed
  /-- An error of a caller's own, given by its kind and details. -/
  | custom (kind : ErrorKind) (details : String)
  deriving DecidableEq, Repr

namespace Error

def wrongTag (expected found : Tag) : Error :=
  tagMismatch expected.text found.text

def wrongClass (expected found : TagClass) : Error :=
  tagMismatch expected.text found.text

def kind : Error → ErrorKind
  | malformed _ | unreadableExtension _ _ => .malformedInput
  | tagMismatch _ _ => .tagMismatch
  | schema _ => .schemaContract
  | wrongType _ _ | unreadable _ _ | noAlternative _ _ => .typeCoercion
  | repeatedExtension _ => .duplicateField
  | invalidArgument _ => .invalidArgument
  | limit _ => .limitExceeded
  | writeFailed => .io
  | custom k _ => k

/-- The kind's label and the details of the cause; a tag mismatch has a sentence of its own. -/
def message : Error → String
  | malformed cause => labelled .malformedInput cause.text
  | unreadableExtension id reason =>
    labelled .malformedInput s!"can't convert extension {id}: {reason.message}"
  | tagMismatch expected found => s!"Expected {expected} tag but found {found}"
  | schema cause => labelled .schemaContract cause.text
  | wrongType expected found =>
    labelled .typeCoercion s!"illegal object in get_instance: expected {expected}, found {found}"
  | unreadable typeName reason =>
    labelled .typeCoercion s!"failed to construct {typeName} from byte array: {reason.message}"
  | noAlternative choice found => labelled .typeCoercion s!"unknown object in {choice}: {found}"
  | repeatedExtension id => labelled .duplicateField s!"repeated extension found: {id}"
  | invalidArgument cause => labelled .invalidArgument cause.text
  | limit cause => labelled .limitExceeded cause.text
  | writeFailed => labelled .io "failed to write whole buffer"
  | custom k details => labelled k details
where
  labelled (k : ErrorKind) (details : String) : String :=
    k.label ++ ": " ++ details

def isMalformed (e : Error) : Bool := e.kind.isMalformed

def isSchemaContract (e : Error) : Bool := e.kind == .schemaContract

end Error

abbrev Result (α : Type) := Except Error α

end Tlv
