import Tlv.Schema
import Tlv.Fields
import Tlv.Value.Equality

/-! # Authority key identifiers

```text
AuthorityKeyIdentifier ::= SEQUENCE {
    keyIdentifier             [0] IMPLICIT OCTET STRING OPTIONAL,
    authorityCertIssuer       [1] IMPLICIT GeneralNames OPTIONAL,
    authorityCertSerialNumber [2] IMPLICIT INTEGER OPTIONAL }
```
-/

namespace Tlv.Certificate

structure AuthorityKeyIdentifier where
  keyIdentifier : Option Octets
  issuer : Option (List Value)
  serial : Option Integer
  deriving BEq

namespace AuthorityKeyIdentifier

/-- An optional field that is tagged implicitly in class CONTEXT. -/
def field {α : Type} (number : UInt32) (c : UniversalSchema α) : FieldParser (Option α) :=
  FieldParser.tagged? (.context number) (c.ofTagged false)

def fields : FieldParser AuthorityKeyIdentifier := do
  let keyIdentifier ← field 0 .octetString
  let issuer ← field 1 .sequence
  let serial ← field 2 .integer
  return { keyIdentifier, issuer, serial }

def element (number : UInt32) (base : Value) : Value :=
  .tagged (.implicit (.context number) base)

def toValue (a : AuthorityKeyIdentifier) : Value :=
  .sequence (a.keyIdentifier.toList.map (fun s => element 0 (.octetString s)) ++
    a.issuer.toList.map (fun vs => element 1 (.sequence vs)) ++
    a.serial.toList.map (fun n => element 2 (.integer n)))

def schema : Schema AuthorityKeyIdentifier :=
  .ofSequence "AuthorityKeyIdentifier" fields.parse

end AuthorityKeyIdentifier

end Tlv.Certificate
