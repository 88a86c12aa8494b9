import Tlv.Error

/-! # Options for reading

The rule that input must follow, and two limits on it: how deep constructed values may nest, and
how much contents one unit may declare. The limits are 64-bit numbers; both bound the work done on
input nobody vouches for.
-/

namespace Tlv

structure ReaderOptions where
  rule : Rule := .ber
  depthLimit : UInt64 := 64
  lengthLimit : UInt64 := 16777216
  deriving DecidableEq, Repr, Inhabited

namespace ReaderOptions

def ofRule (rule : Rule) : ReaderOptions := { rule }

/-- The defaults, with the given fields in their place. -/
def withFields (rule : Option Rule) (depthLimit lengthLimit : Option UInt64) : ReaderOptions :=
  let c : ReaderOptions := {}
  ⟨rule.getD c.rule, depthLimit.getD c.depthLimit, lengthLimit.getD c.lengthLimit⟩

/-- As `withFields`, for limits that are at least 1. -/
def build (rule : Option Rule) (depthLimit lengthLimit : Option UInt64) : Result ReaderOptions :=
  let c := withFields rule depthLimit lengthLimit
  if c.depthLimit = 0 then .error (.invalidArgument .zeroDepth)
  else if c.lengthLimit = 0 then .error (.invalidArgument .zeroContentLength)
  else .ok c

end ReaderOptions

end Tlv
