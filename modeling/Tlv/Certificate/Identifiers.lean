import Tlv.Oid

/-! # Registered identifiers

Object identifiers of the algorithms and of the certificate and CRL extensions in common use.
-/

namespace Tlv.Certificate.Identifiers

/-! ## Algorithms -/

def rsaEncryption : Oid := ⟨[0x2A, 0x86, 0x48, 0x86, 0xF7, 0x0D, 0x01, 0x01, 0x01], by decide⟩

def sha256WithRsaEncryption : Oid :=
  ⟨[0x2A, 0x86, 0x48, 0x86, 0xF7, 0x0D, 0x01, 0x01, 0x0B], by decide⟩

def ecPublicKey : Oid := ⟨[0x2A, 0x86, 0x48, 0xCE, 0x3D, 0x02, 0x01], by decide⟩

def ecdsaWithSha256 : Oid := ⟨[0x2A, 0x86, 0x48, 0xCE, 0x3D, 0x04, 0x03, 0x02], by decide⟩

def idEd25519 : Oid := ⟨[0x2B, 0x65, 0x70], by decide⟩

def idSha256 : Oid := ⟨[0x60, 0x86, 0x48, 0x01, 0x65, 0x03, 0x04, 0x02, 0x01], by decide⟩

/-! ## Certificate and CRL extensions, under 2.5.29 -/

def subjectDirectoryAttributes : Oid := ⟨[0x55, 0x1D, 9], by decide⟩

def subjectKeyIdentifier : Oid := ⟨[0x55, 0x1D, 14], by decide⟩

def keyUsage : Oid := ⟨[0x55, 0x1D, 15], by decide⟩

def privateKeyUsagePeriod : Oid := ⟨[0x55, 0x1D, 16], by decide⟩

def subjectAlternativeName : Oid := ⟨[0x55, 0x1D, 17], by decide⟩

def issuerAlternativeName : Oid := ⟨[0x55, 0x1D, 18], by decide⟩

def basicConstraints : Oid := ⟨[0x55, 0x1D, 19], by decide⟩

def crlNumber : Oid := ⟨[0x55, 0x1D, 20], by decide⟩

def reasonCode : Oid := ⟨[0x55, 0x1D, 21], by decide⟩

def invalidityDate : Oid := ⟨[0x55, 0x1D, 24], by decide⟩

def deltaCrlIndicator : Oid := ⟨[0x55, 0x1D, 27], by decide⟩

def issuingDistributionPoint : Oid := ⟨[0x55, 0x1D, 28], by decide⟩

def certificateIssuer : Oid := ⟨[0x55, 0x1D, 29], by decide⟩

def nameConstraints : Oid := ⟨[0x55, 0x1D, 30], by decide⟩

def crlDistributionPoints : Oid := ⟨[0x55, 0x1D, 31], by decide⟩

def certificatePolicies : Oid := ⟨[0x55, 0x1D, 32], by decide⟩

def policyMappings : Oid := ⟨[0x55, 0x1D, 33], by decide⟩

def authorityKeyIdentifier : Oid := ⟨[0x55, 0x1D, 35], by decide⟩

def policyConstraints : Oid := ⟨[0x55, 0x1D, 36], by decide⟩

def extendedKeyUsage : Oid := ⟨[0x55, 0x1D, 37], by decide⟩

def freshestCrl : Oid := ⟨[0x55, 0x1D, 46], by decide⟩

def inhibitAnyPolicy : Oid := ⟨[0x55, 0x1D, 54], by decide⟩

/-! ## Private extensions of the Internet, under 1.3.6.1.5.5.7.1 -/

def authorityInfoAccess : Oid := ⟨[0x2B, 6, 1, 5, 5, 7, 1, 1], by decide⟩

def subjectInfoAccess : Oid := ⟨[0x2B, 6, 1, 5, 5, 7, 1, 11], by decide⟩

/-! ## Names -/

/-- The identifiers above by their names. -/
def named : List (String × Oid) :=
  [("rsaEncryption", rsaEncryption), ("sha256WithRsaEncryption", sha256WithRsaEncryption),
    ("ecPublicKey", ecPublicKey), ("ecdsaWithSha256", ecdsaWithSha256), ("idEd25519", idEd25519),
    ("idSha256", idSha256), ("subjectDirectoryAttributes", subjectDirectoryAttributes),
    ("subjectKeyIdentifier", subjectKeyIdentifier), ("keyUsage", keyUsage),
    ("privateKeyUsagePeriod", privateKeyUsagePeriod),
    ("subjectAlternativeName", subjectAlternativeName),
    ("issuerAlternativeName", issuerAlternativeName), ("basicConstraints", basicConstraints),
    ("crlNumber", crlNumber), ("reasonCode", reasonCode), ("invalidityDate", invalidityDate),
    ("deltaCrlIndicator", deltaCrlIndicator),
    ("issuingDistributionPoint", issuingDistributionPoint),
    ("certificateIssuer", certificateIssuer), ("nameConstraints", nameConstraints),
    ("crlDistributionPoints", crlDistributionPoints), ("certificatePolicies", certificatePolicies),
    ("policyMappings", policyMappings), ("authorityKeyIdentifier", authorityKeyIdentifier),
    ("policyConstraints", policyConstraints), ("extendedKeyUsage", extendedKeyUsage),
    ("freshestCrl", freshestCrl), ("inhibitAnyPolicy", inhibitAnyPolicy),
    ("authorityInfoAccess", authorityInfoAccess), ("subjectInfoAccess", subjectInfoAccess)]

def ofName? (name : String) : Option Oid :=
  (named.find? (·.1 == name)).map (·.2)

end Tlv.Certificate.Identifiers
