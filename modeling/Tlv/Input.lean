import Tlv.Value.Reading

/-! # Input read step by step

An input is a buffer of octets with a position in it. Each step reads from the position and moves
it, on failure too: it then stands where the fault was found.
-/

namespace Tlv

structure Input where
  options : ReaderOptions
  buffer : Octets
  /-- What stands behind the position. -/
  rest : Octets

namespace Input

def ofOctets (options : ReaderOptions) (s : Octets) : Input := ⟨options, s, s⟩

def position (i : Input) : Nat := i.buffer.length - i.rest.length

def remaining (i : Input) : Nat := i.rest.length

/-- The outcome of a reading, and the input behind it. -/
def after {α : Type} (i : Input) : Reading α i.rest → Result α × Input
  | .ok (a, ⟨t, _⟩) => (.ok a, { i with rest := t })
  | .error e => (.error e.error, { i with rest := e.rest })

def nextHeader (i : Input) : Result (Identifier × Length) × Input :=
  i.after (Reader.header i.options i.rest)

def nextValue (i : Input) : Result Value × Input :=
  i.after (Reader.value i.options i.options.depthLimit.toNat i.buffer i.rest)

/-- Reads values until the input is used up. -/
def allValues (i : Input) : Result (List Value) × Input :=
  match Reader.values (Reader.value i.options i.options.depthLimit.toNat i.buffer) i.rest with
  | .ok vs => (.ok vs, { i with rest := [] })
  | .error e => (.error e.error, { i with rest := e.rest })

end Input

end Tlv
