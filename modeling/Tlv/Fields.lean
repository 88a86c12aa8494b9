import Tlv.Tagged.Resolution

/-! # The fields of a SEQUENCE

A SEQUENCE is read field by field, from its first element to its last. A parser of fields leaves
them in some state whether it succeeds or fails. Those for single fields make something of the next
element before they step behind it.
-/

namespace Tlv

/-- The elements of a SEQUENCE, and how many of them are taken. -/
structure Fields where
  elements : List Value
  position : Nat

abbrev FieldParser := EStateM Error Fields

namespace Fields

def ofElements (elements : List Value) : Fields := ⟨elements, 0⟩

def unread (fs : Fields) : List Value := fs.elements.drop fs.position

def head? (fs : Fields) : Option Value := fs.elements[fs.position]?

def advance (fs : Fields) : Fields := { fs with position := fs.position + 1 }

theorem head?_eq_head?_unread (fs : Fields) : fs.head? = fs.unread.head? :=
  List.head?_drop.symm

theorem unread_advance (fs : Fields) : fs.advance.unread = fs.unread.tail :=
  List.tail_drop.symm

theorem unread_eq_cons (fs : Fields) {v : Value} (h : fs.head? = some v) :
    fs.unread = v :: fs.advance.unread := by
  obtain ⟨hlt, hv⟩ := List.getElem?_eq_some_iff.1 h
  rw [unread, List.drop_eq_getElem_cons hlt, hv]
  rfl

/-- Runs a parser: its outcome, and the fields after it. -/
def attempt {α : Type} (fs : Fields) (p : FieldParser α) : Result α × Fields :=
  match p fs with
  | .ok a gs => (.ok a, gs)
  | .error e gs => (.error e, gs)

end Fields

namespace FieldParser

variable {α : Type}

def peek : FieldParser (Option Value) := return (← get).head?

/-- The next element, which there must be. It is not taken. -/
def required : FieldParser Value := do
  let some v ← peek | throw (.malformed (.missingElement (← get).position))
  return v

def advance : FieldParser Unit := modify Fields.advance

/-- The next element, as `build` makes it. -/
def next (build : Value → Result α) : FieldParser α := do
  let v ← required
  let a ← ofExcept (build v)
  advance
  return a

/-- The next element, as `build` makes it, unless that passes. -/
def next? (build : Value → Result (Option α)) : FieldParser (Option α) := do
  let some v ← peek | return none
  let r ← ofExcept (build v)
  if r.isSome then advance
  return r

/-- The next element, which must be a tagged object with this tag. -/
def tagged (tag : Tag) (build : Tagged → Result α) : FieldParser α := do
  let v ← required
  let t ← ofExcept <| match v with
    | .tagged t => t.expectTag tag
    | v => .error (.wrongTag tag v.tag)
  let a ← ofExcept (build t)
  advance
  return a

/-- The next element, if it is a tagged object with this tag. -/
def tagged? (tag : Tag) (build : Tagged → Result α) : FieldParser (Option α) := do
  let some (.tagged t) ← peek | return none
  if t.tag = tag then
    let a ← ofExcept (build t)
    advance
    return some a
  else
    return none

def atEnd : FieldParser Unit := do
  let fs ← get
  match fs.unread with
  | [] => return
  | vs => throw (.malformed (.unreadElements vs.length fs.position))

/-- The fields of a SEQUENCE, of which none may be left over. -/
def parse (p : FieldParser α) (elements : List Value) : Result α :=
  ((Fields.ofElements elements).attempt do let a ← p; atEnd; return a).1

/-! ## What the operations come to -/

section

variable {β : Type} {p : FieldParser α} {f : α → FieldParser β} {fs : Fields} {v : Value} {a : α}
  {e : Error}

@[simp]
theorem bind_apply :
    (p >>= f) fs = match p fs with
      | .ok a gs => f a gs
      | .error e gs => .error e gs := by
  simp only [bind, EStateM.bind]
  cases p fs <;> rfl

@[simp]
theorem map_apply (g : α → β) :
    (g <$> p) fs = match p fs with
      | .ok a gs => .ok (g a) gs
      | .error e gs => .error e gs := by
  simp only [Functor.map, EStateM.map]
  cases p fs <;> rfl

@[simp]
theorem pure_apply : (pure a : FieldParser α) fs = .ok a fs := rfl

@[simp]
theorem throw_apply : (throw e : FieldParser α) fs = .error e fs := rfl

@[simp]
theorem ofExcept_ok_apply : (ofExcept (.ok a : Result α) : FieldParser α) fs = .ok a fs := rfl

@[simp]
theorem ofExcept_error_apply :
    (ofExcept (.error e : Result α) : FieldParser α) fs = .error e fs := rfl

@[simp]
theorem peek_apply : peek fs = .ok fs.head? fs := rfl

@[simp]
theorem advance_apply : advance fs = .ok () fs.advance := rfl

theorem bind_eq_ok_iff {b : β} {hs : Fields} :
    (p >>= f) fs = .ok b hs ↔ ∃ a gs, p fs = .ok a gs ∧ f a gs = .ok b hs := by
  rw [bind_apply]
  cases p fs <;> grind

theorem attempt_fst_eq_ok_iff : (fs.attempt p).1 = .ok a ↔ ∃ gs, p fs = .ok a gs := by
  unfold Fields.attempt
  cases p fs with
  | ok b gs => simp
  | error e gs => simp

theorem required_of_some (h : fs.head? = some v) : required fs = .ok v fs := by
  simp [required, h]

theorem required_of_none (h : fs.head? = none) :
    required fs = .error (.malformed (.missingElement fs.position)) fs := by
  simp [required, h]
  rfl

end

variable {fs : Fields}

theorem next_eq {build : Value → Result α} :
    next build fs =
      match fs.head? with
      | none => .error (.malformed (.missingElement fs.position)) fs
      | some v =>
        match build v with
        | .ok a => .ok a fs.advance
        | .error e => .error e fs := by
  unfold next
  cases hv : fs.head? with
  | none => simp [required_of_none hv]
  | some v => cases hb : build v <;> simp [required_of_some hv, hb]

theorem next?_eq {build : Value → Result (Option α)} :
    next? build fs =
      match fs.head? with
      | none => .ok none fs
      | some v =>
        match build v with
        | .ok r => .ok r (if r.isSome then fs.advance else fs)
        | .error e => .error e fs := by
  unfold next?
  cases hv : fs.head? with
  | none => simp [hv]
  | some v => rcases hb : build v with e | _ | a <;> simp [hv, hb]

theorem next_eq_ok_iff {build : Value → Result α} {a : α} {gs : Fields} :
    next build fs = .ok a gs ↔ ∃ v, fs.head? = some v ∧ build v = .ok a ∧ gs = fs.advance := by
  rw [next_eq]
  grind

theorem next?_eq_ok_iff {build : Value → Result (Option α)} {r : Option α} {gs : Fields} :
    next? build fs = .ok r gs ↔
      fs.head? = none ∧ r = none ∧ gs = fs ∨
      ∃ v, fs.head? = some v ∧ build v = .ok r ∧ gs = if r.isSome then fs.advance else fs := by
  rw [next?_eq]
  grind

/-- An element without the tag is not given to `build`. -/
theorem tagged_eq (tag : Tag) (build : Tagged → Result α) :
    tagged tag build = next fun
      | .tagged t => t.under tag build
      | v => .error (.wrongTag tag v.tag) := by
  funext fs
  rw [next_eq]
  unfold tagged
  cases hv : fs.head? with
  | none => simp [required_of_none hv]
  | some v =>
    cases v with
    | tagged t =>
      by_cases ht : t.tag = tag
      · cases hb : build t <;>
          simp [required_of_some hv, Tagged.under_of_eq ht, Tagged.expectTag_of_eq ht, hb]
      · simp [required_of_some hv, Tagged.under_of_ne ht, Tagged.expectTag_of_ne ht]
    | _ => simp [required_of_some hv]

theorem tagged?_eq (tag : Tag) (build : Tagged → Result α) :
    tagged? tag build = next? (Value.under? tag build) := by
  funext fs
  rw [next?_eq]
  unfold tagged?
  cases hv : fs.head? with
  | none => simp [hv]
  | some v =>
    cases v with
    | tagged t =>
      by_cases ht : t.tag = tag
      · cases hb : build t <;> simp [hv, Value.under?, Tagged.under?, ht, hb, Except.map]
      · simp [hv, Value.under?, Tagged.under?, ht]
    | _ => simp [hv, Value.under?]

theorem atEnd_eq :
    atEnd fs =
      match fs.unread with
      | [] => .ok () fs
      | vs => .error (.malformed (.unreadElements vs.length fs.position)) fs := by
  have hget : (get : FieldParser Fields) fs = .ok fs fs := rfl
  simp only [atEnd, bind_apply, hget]
  cases fs.unread <;> rfl

theorem atEnd_eq_ok_iff {u : Unit} {gs : Fields} :
    atEnd fs = .ok u gs ↔ fs.unread = [] ∧ fs = gs := by
  rw [atEnd_eq]
  cases fs.unread with
  | nil => simp
  | cons v vs => simp

theorem parse_eq_ok_iff {p : FieldParser α} {vs : List Value} {a : α} :
    parse p vs = .ok a ↔ ∃ gs, p (.ofElements vs) = .ok a gs ∧ gs.unread = [] := by
  simp only [parse, attempt_fst_eq_ok_iff, bind_eq_ok_iff, atEnd_eq_ok_iff, pure_apply]
  grind

end FieldParser

end Tlv
