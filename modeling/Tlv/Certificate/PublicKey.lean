import Tlv.Schema
import Tlv.Fields
import Tlv.Value.Equality

/-! # Algorithm identifiers and public keys

```text
AlgorithmIdentifier  ::= SEQUENCE {
    algorithm            OBJECT IDENTIFIER,
    parameters           ANY DEFINED BY algorithm OPTIONAL }

SubjectPublicKeyInfo ::= SEQUENCE {
    algorithm            AlgorithmIdentifier,
    subjectPublicKey     BIT STRING }
```
-/

namespace Tlv.Certificate

structure AlgorithmIdentifier where
  algorithm : Oid
  parameters : Option Value
  deriving BEq

namespace AlgorithmIdentifier

def fields : FieldParser AlgorithmIdentifier := do
  let algorithm ← FieldParser.next UniversalSchema.oid.ofValue
  let parameters ← FieldParser.next? fun v => .ok (some v)
  return { algorithm, parameters }

def toValue (a : AlgorithmIdentifier) : Value :=
  .sequence (.oid a.algorithm :: a.parameters.toList)

def schema : Schema AlgorithmIdentifier :=
  .ofSequence "AlgorithmIdentifier" fields.parse

end AlgorithmIdentifier

structure SubjectPublicKeyInfo where
  algorithm : AlgorithmIdentifier
  publicKey : BitString
  deriving BEq

namespace SubjectPublicKeyInfo

def fields : FieldParser SubjectPublicKeyInfo := do
  let algorithm ← FieldParser.next AlgorithmIdentifier.schema.ofValue
  let publicKey ← FieldParser.next UniversalSchema.bitString.ofValue
  return { algorithm, publicKey }

def toValue (k : SubjectPublicKeyInfo) : Value :=
  .sequence [k.algorithm.toValue, .bitString k.publicKey]

def schema : Schema SubjectPublicKeyInfo :=
  .ofSequence "SubjectPublicKeyInfo" fields.parse

/-- The key, if it is whole octets. -/
def keyOctets (k : SubjectPublicKeyInfo) : Result Octets :=
  match k.publicKey.octets? with
  | some s => .ok s
  | none => .error (.malformed (.unusedKeyBits k.publicKey.unused))

/-- The value that the key is the encoding of. -/
def keyValue (k : SubjectPublicKeyInfo) : Result Value := do
  Value.ofBer (← k.keyOctets)

end SubjectPublicKeyInfo

end Tlv.Certificate
