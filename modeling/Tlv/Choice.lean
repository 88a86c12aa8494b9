import Tlv.Schema

/-! # Choices

An untagged CHOICE has no tag of its own: the tag of a value selects the alternative. The first
alternative that recognizes the value takes it. An implicit tag would replace the tag that
selects, so a tagged choice is always explicit.
-/

namespace Tlv

structure Choice (α : Type) where
  typeName : String
  /-- The alternatives in the order they are tried; one that does not recognize a value passes. -/
  alternatives : List (Value → Result (Option α))

namespace Choice

variable {α : Type} (c : Choice α)

/-- The answer of the first alternative that does not pass. -/
def firstOf : List (Value → Result (Option α)) → Value → Result (Option α)
  | [], _ => .ok none
  | a :: as, v =>
    match a v with
    | .ok none => firstOf as v
    | r => r

def select (v : Value) : Result (Option α) := firstOf c.alternatives v

def ofValue (v : Value) : Result α := do
  match ← c.select v with
  | some a => .ok a
  | none => .error (.noAlternative c.typeName v.typeName)

def ofOctets (s : Octets) : Result α :=
  match Value.ofBer s with
  | .error e => .error (.unreadable c.typeName e)
  | .ok v => c.ofValue v

def ofForm : Form α → Result α
  | .typed a => .ok a
  | .value v => c.ofValue v
  | .octets s => c.ofOctets s

/-- The alternative under a tag, which must be declared explicit. -/
def ofTagged (isExplicit : Bool) (t : Tagged) : Result α :=
  if isExplicit then do c.ofValue (← t.peel)
  else .error (.schema (.implicitChoice c.typeName))

/-- As `ofTagged`, for objects of class CONTEXT. -/
def ofContextTagged (isExplicit : Bool) (t : Tagged) : Result α := do
  c.ofTagged isExplicit (← t.expectClass .context)

def map {β : Type} (f : α → β) : Choice β where
  typeName := c.typeName
  alternatives := c.alternatives.map fun a v => (a v).map fun r => r.map f

/-- The alternative of the values that a schema recognizes. -/
def alternative {β : Type} (c : Schema β) (build : β → α) (v : Value) : Result (Option α) :=
  (c.optional v).map fun r => r.map build

end Choice

end Tlv
