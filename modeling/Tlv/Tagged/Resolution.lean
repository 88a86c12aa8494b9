import Tlv.Value.TypeTable

/-! # Resolving tagged objects

The octets of a tagged object do not tell whether its tag is explicit or implicit; the declaration
of the field does. Declared explicit, the contents must be one unit, which is the base. Declared
implicit, the contents are read as those of the base type. Objects built by a program know how
they were tagged, and asking otherwise is a fault of the schema.
-/

namespace Tlv

namespace Tagged

/-- The value under an explicit tag. -/
def peel : Tagged → Result Value
  | explicit _ base => .ok base
  | raw _ _ (.constructed [base]) => .ok base
  | implicit tag _ => .error (.schema (.builtImplicit tag))
  | raw tag _ _ => .error (.malformed (.notExplicit tag))

/-- The value under an explicit tag, if that is a tagged object again. -/
def peelTagged (t : Tagged) : Result Tagged := do
  match ← t.peel with
  | .tagged base => .ok base
  | v => .error (.malformed (.notTagged t.tag v.tag))

/-- The contents read as those of an object under `base`, whose tag was replaced. -/
def reinterpret (base : Tag) : Tagged → Result Tagged
  | explicit tag _ => .error (.schema (.builtExplicit tag))
  | implicit _ (.tagged inner) =>
    if inner.tag = base then .ok inner else .error (.wrongTag base inner.tag)
  | implicit _ v => .error (.wrongTag base v.tag)
  | raw _ rule contents => .ok (.raw base rule contents)

/-- The contents read as those of a universal type. An explicitly built object reads like the one
unit that its contents are. -/
def resolveImplicit (number : UInt32) (t : Tagged) : Result Value :=
  match TypeEntry.ofNumber? number with
  | none => .error (.schema (.unassignedType number))
  | some e =>
    match t with
    | raw _ rule contents => e.construct rule contents
    | explicit _ base => e.construct .ber (.constructed [base])
    | implicit _ base => base.expectUniversal number

/-- Resolution as the type of the number, whose contents alone can be at fault. -/
theorem resolveImplicit_eq (number : UInt32) (t : Tagged) :
    t.resolveImplicit number =
      match UniversalType.ofNumber? number with
      | none => .error (.schema (.unassignedType number))
      | some u =>
        match t with
        | raw _ rule contents => (u.ofContents rule contents).mapError .malformed
        | explicit _ base => (u.ofContents .ber (.constructed [base])).mapError .malformed
        | implicit _ base => base.expectUniversal number := by
  rw [resolveImplicit, TypeEntry.ofNumber?_eq]
  cases UniversalType.ofNumber? number with
  | none => rfl
  | some u => cases t <;> simp only [Option.map_some, TypeEntry.construct_entry]

/-- The base as a value of the universal type `number`, by the declared tagging. -/
def resolve (isExplicit : Bool) (number : UInt32) (t : Tagged) : Result Value :=
  if isExplicit then do (← t.peel).expectUniversal number
  else t.resolveImplicit number

/-- The object itself, if it has the tag. -/
def expectTag (tag : Tag) (t : Tagged) : Result Tagged :=
  if t.tag = tag then .ok t else .error (.wrongTag tag t.tag)

/-- The object itself, if its tag is of the class. -/
def expectClass (cls : TagClass) (t : Tagged) : Result Tagged :=
  if t.tag.cls = cls then .ok t else .error (.wrongClass cls t.tag.cls)

section

variable {α : Type} (tag : Tag) (build : Tagged → Result α)

/-- What `build` makes of the object, which must have the tag. -/
def under (t : Tagged) : Result α := do build (← t.expectTag tag)

/-- What `build` makes of the object, or nothing if it has another tag. -/
def under? (t : Tagged) : Result (Option α) :=
  if t.tag = tag then (build t).map some else .ok none

variable {tag build} {t : Tagged}

theorem expectTag_of_eq (h : t.tag = tag) : t.expectTag tag = .ok t := if_pos h

theorem expectTag_of_ne (h : t.tag ≠ tag) : t.expectTag tag = .error (.wrongTag tag t.tag) :=
  if_neg h

theorem under_of_eq (h : t.tag = tag) : t.under tag build = build t := by
  rw [under, expectTag_of_eq h]
  rfl

theorem under_of_ne (h : t.tag ≠ tag) : t.under tag build = .error (.wrongTag tag t.tag) := by
  rw [under, expectTag_of_ne h]
  rfl

end

end Tagged

/-- What `build` makes of a tagged object with this tag, or nothing for any other value. -/
def Value.under? {α : Type} (tag : Tag) (build : Tagged → Result α) : Value → Result (Option α)
  | .tagged t => t.under? tag build
  | _ => .ok none

end Tlv
