import Tlv.Fields

/-! # Fields one after the other

The fields of a SEQUENCE are read by calls, each with a function for the element that it is about.
A call gives its function the next element or does not ask it at all, and it moves behind the
element only if there is a result. So the elements that were taken, whatever calls were made and
however they ended, are always the first ones, each taken once and in order.
-/

namespace Tlv

namespace Fields

/-- The ways to read an element. One that wants a tagged object names its tag, which is one of class
CONTEXT for most fields; the ways with a question mark let a field be absent. -/
inductive Operation where
  | next
  | next?
  | tagged (tag : Tag)
  | tagged? (tag : Tag)

namespace Operation

/-- What the function is given: an element as it is, or the tagged object that it is. -/
abbrev Argument : Operation → Type
  | next | next? => Value
  | tagged _ | tagged? _ => Tagged

/-- What the function answers, unless it fails. That of `next?` may pass. -/
abbrev Answer (α : Type) : Operation → Type
  | next? => Option α
  | next | tagged _ | tagged? _ => α

variable {α : Type}

def parser : (o : Operation) → (o.Argument → Result (o.Answer α)) → FieldParser (Option α)
  | next, build => some <$> FieldParser.next build
  | next?, build => FieldParser.next? build
  | tagged tag, build => some <$> FieldParser.tagged tag build
  | tagged? tag, build => FieldParser.tagged? tag build

def element : (o : Operation) → o.Argument → Value
  | next, v | next?, v => v
  | tagged _, t | tagged? _, t => .tagged t

/-- The argument that an element is, if the operation wants it. -/
def argument? : (o : Operation) → Value → Option o.Argument
  | next, v | next?, v => some v
  | tagged tag, .tagged t | tagged? tag, .tagged t => if t.tag = tag then some t else none
  | tagged _, _ | tagged? _, _ => none

def result? : (o : Operation) → o.Answer α → Option α
  | next?, r => r
  | next, a | tagged _, a | tagged? _, a => some a

def asked (o : Operation) (fs : Fields) : Option o.Argument := fs.head?.bind o.argument?

/-- The outcome where the function is not asked. -/
def unasked : Operation → Fields → Result (Option α)
  | next, fs => .error (.malformed (.missingElement fs.position))
  | tagged tag, fs =>
    match fs.head? with
    | none => .error (.malformed (.missingElement fs.position))
    | some v => .error (.wrongTag tag v.tag)
  | next?, _ | tagged? _, _ => .ok none

/-- The outcome that the function's answer leads to, and the fields behind it. -/
def settle (o : Operation) (fs : Fields) : Result (o.Answer α) → Result (Option α) × Fields
  | .error e => (.error e, fs)
  | .ok r => (.ok (o.result? r), if (o.result? r).isSome then fs.advance else fs)

variable {o : Operation} {build : o.Argument → Result (o.Answer α)} {fs : Fields}
  {x : o.Argument} {v : Value}

theorem element_of_argument? (h : o.argument? v = some x) : o.element x = v := by
  cases o with
  | next | next? =>
    cases h
    rfl
  | tagged tag | tagged? tag =>
    cases v with
    | tagged t =>
      obtain ⟨-, hx⟩ := Option.ite_none_right_eq_some.1 h
      cases hx
      rfl
    | _ => cases h

theorem head?_of_asked (h : o.asked fs = some x) : fs.head? = some (o.element x) := by
  obtain ⟨v, hv, hx⟩ := Option.bind_eq_some_iff.1 h
  rw [hv, element_of_argument? hx]

theorem tag_of_asked {tag : Tag} (ho : o = .tagged tag ∨ o = .tagged? tag)
    (h : o.asked fs = some x) : ∃ t, o.element x = .tagged t ∧ t.tag = tag := by
  obtain ⟨v, -, hx⟩ := Option.bind_eq_some_iff.1 h
  rcases ho with rfl | rfl
  all_goals
    refine ⟨x, rfl, ?_⟩
    cases v with
    | tagged t =>
      obtain ⟨ht, hx⟩ := Option.ite_none_right_eq_some.1 hx
      cases hx
      exact ht
    | _ => cases hx

theorem attempt_of_asked (h : o.asked fs = some x) :
    fs.attempt (o.parser build) = o.settle fs (build x) := by
  have hv := head?_of_asked h
  cases o with
  | next =>
    simp only [attempt, parser, FieldParser.map_apply, FieldParser.next_eq, hv, element]
    cases build x <;> rfl
  | next? =>
    simp only [attempt, parser, FieldParser.next?_eq, hv, element]
    cases build x <;> rfl
  | tagged tag =>
    obtain ⟨t, ht, htag⟩ := tag_of_asked (.inl rfl) h
    cases ht
    simp only [attempt, parser, FieldParser.map_apply, FieldParser.tagged_eq, FieldParser.next_eq,
      hv, element, Tagged.under_of_eq htag]
    cases build x <;> rfl
  | tagged? tag =>
    obtain ⟨t, ht, htag⟩ := tag_of_asked (.inr rfl) h
    cases ht
    simp only [attempt, parser, FieldParser.tagged?_eq, FieldParser.next?_eq, hv, element,
      Value.under?, Tagged.under?, if_pos htag]
    cases build x <;> rfl

theorem attempt_of_not_asked (h : o.asked fs = none) :
    fs.attempt (o.parser build) = (o.unasked fs, fs) := by
  cases hv : fs.head? with
  | none =>
    cases o with
    | next | tagged tag =>
      simp only [attempt, parser, FieldParser.map_apply, FieldParser.tagged_eq,
        FieldParser.next_eq, unasked, hv]
    | next? | tagged? tag =>
      simp only [attempt, parser, FieldParser.tagged?_eq, FieldParser.next?_eq, unasked, hv]
  | some v =>
    have hx : o.argument? v = none := by simpa [asked, hv] using h
    cases o with
    | next | next? => cases hx
    | tagged tag =>
      simp only [attempt, parser, FieldParser.map_apply, FieldParser.tagged_eq,
        FieldParser.next_eq, hv, unasked]
      cases v with
      | tagged t =>
        have ht : t.tag ≠ tag := by simpa [argument?] using hx
        simp only [Tagged.under_of_ne ht]
        rfl
      | _ => rfl
    | tagged? tag =>
      simp only [attempt, parser, FieldParser.tagged?_eq, FieldParser.next?_eq, hv, unasked]
      cases v with
      | tagged t =>
        have ht : t.tag ≠ tag := by simpa [argument?] using hx
        simp only [Value.under?, Tagged.under?, if_neg ht, Option.isSome_none]
        rfl
      | _ => rfl

end Operation

/-! ## Calls -/

structure Call where
  operation : Operation
  α : Type
  build : operation.Argument → Result (operation.Answer α)

def perform (fs : Fields) (c : Call) : Result (Option c.α) × Fields :=
  fs.attempt (c.operation.parser c.build)

def performAll (fs : Fields) (calls : List Call) : Fields :=
  calls.foldl (fun fs c => (fs.perform c).2) fs

/-- The element that a call accepts: its function was asked about it and gave a result. -/
def accepts (fs : Fields) (c : Call) : List Value :=
  match (fs.perform c).1 with
  | .ok (some _) => (c.operation.asked fs).toList.map c.operation.element
  | _ => []

def acceptsAll : Fields → List Call → List Value
  | _, [] => []
  | fs, c :: calls => fs.accepts c ++ acceptsAll (fs.perform c).2 calls

/-- The ways in which a call can end: with the result of its function and behind the element, or
without a result and where it began. -/
inductive Ends (fs : Fields) (c : Call) : Result (Option c.α) × Fields → Prop where

  | taken {x : c.operation.Argument} {r : c.operation.Answer c.α} {a : c.α} :
      c.operation.asked fs = some x → c.build x = .ok r → c.operation.result? r = some a →
      Ends fs c (.ok (some a), fs.advance)

  | absent : Ends fs c (.ok none, fs)

  | failed (e : Error) : Ends fs c (.error e, fs)

variable {fs gs : Fields} {c : Call}

theorem unasked_cases {α : Type} (o : Operation) (fs : Fields) :
    (o.unasked fs : Result (Option α)) = .ok none ∨
      ∃ e, (o.unasked fs : Result (Option α)) = .error e := by
  cases o with
  | next => exact .inr ⟨_, rfl⟩
  | next? | tagged? => exact .inl rfl
  | tagged tag =>
    rw [Operation.unasked]
    split <;> exact .inr ⟨_, rfl⟩

theorem ends_perform (fs : Fields) (c : Call) : fs.Ends c (fs.perform c) := by
  unfold perform
  cases hx : c.operation.asked fs with
  | none =>
    rw [Operation.attempt_of_not_asked hx]
    rcases unasked_cases (α := c.α) c.operation fs with h | ⟨e, h⟩
    · rw [h]
      exact .absent
    · rw [h]
      exact .failed e
  | some x =>
    rw [Operation.attempt_of_asked hx]
    cases hr : c.build x with
    | error e => exact .failed e
    | ok r =>
      rw [Operation.settle]
      cases ha : c.operation.result? r with
      | none => exact .absent
      | some a => exact .taken hx hr ha

theorem perform_congr {build : c.operation.Argument → Result (c.operation.Answer c.α)}
    (h : ∀ x ∈ c.operation.asked fs, build x = c.build x) :
    fs.perform ⟨c.operation, c.α, build⟩ = fs.perform c := by
  unfold perform
  cases hx : c.operation.asked fs with
  | none => rw [Operation.attempt_of_not_asked hx, Operation.attempt_of_not_asked hx]
  | some x =>
    rw [Operation.attempt_of_asked hx, Operation.attempt_of_asked hx]
    exact congrArg _ (h x hx)

theorem perform_snd_cases (fs : Fields) (c : Call) :
    ((fs.perform c).2 = fs.advance ∧
      ∃ x, c.operation.asked fs = some x ∧ fs.accepts c = [c.operation.element x]) ∨
    ((fs.perform c).2 = fs ∧ fs.accepts c = []) := by
  unfold accepts
  have h := ends_perform fs c
  generalize fs.perform c = r at h ⊢
  cases h with
  | taken hx _ _ => exact .inl ⟨rfl, _, hx, by rw [hx]; rfl⟩
  | absent => exact .inr ⟨rfl, rfl⟩
  | failed e => exact .inr ⟨rfl, rfl⟩

theorem perform_snd_of_position_eq (h : (fs.perform c).2.position = fs.position) :
    (fs.perform c).2 = fs := by
  rcases perform_snd_cases fs c with ⟨hs, -⟩ | ⟨hs, -⟩
  · rw [hs] at h
    exact absurd h (Nat.succ_ne_self _)
  · exact hs

/-- The fields, starting from `fs`, stand behind the elements `vs`. -/
structure Takes (fs : Fields) (vs : List Value) (gs : Fields) : Prop where
  elements_eq : gs.elements = fs.elements
  position_eq : gs.position = fs.position + vs.length
  unread_eq : fs.unread = vs ++ gs.unread

theorem Takes.refl (fs : Fields) : fs.Takes [] fs := ⟨rfl, rfl, rfl⟩

theorem Takes.trans {hs : Fields} {vs ws : List Value} (h : fs.Takes vs gs) (h' : gs.Takes ws hs) :
    fs.Takes (vs ++ ws) hs where
  elements_eq := h'.elements_eq.trans h.elements_eq
  position_eq := by rw [h'.position_eq, h.position_eq, List.length_append, Nat.add_assoc]
  unread_eq := by rw [h.unread_eq, h'.unread_eq, List.append_assoc]

theorem takes_advance {v : Value} (h : fs.head? = some v) : fs.Takes [v] fs.advance where
  elements_eq := rfl
  position_eq := rfl
  unread_eq := fs.unread_eq_cons h

theorem takes_perform (fs : Fields) (c : Call) : fs.Takes (fs.accepts c) (fs.perform c).2 := by
  rcases perform_snd_cases fs c with ⟨hs, x, hx, ha⟩ | ⟨hs, ha⟩
  · rw [hs, ha]
    exact takes_advance (Operation.head?_of_asked hx)
  · rw [hs, ha]
    exact .refl fs

/-- However calls end, those that took elements took the next ones, in order. -/
theorem takes_performAll (fs : Fields) (calls : List Call) :
    fs.Takes (fs.acceptsAll calls) (fs.performAll calls) := by
  induction calls generalizing fs with
  | nil => exact .refl fs
  | cons c calls ih => exact (takes_perform fs c).trans (ih _)

theorem attempt_atEnd_iff : (fs.attempt FieldParser.atEnd).1 = .ok () ↔ fs.unread = [] := by
  simp [FieldParser.attempt_fst_eq_ok_iff, FieldParser.atEnd_eq_ok_iff]

structure Disciplined (fs : Fields) (c : Call) : Prop where
  ends : fs.Ends c (fs.perform c)
  /-- The function is asked about the next element, if about any. -/
  head?_of_asked : ∀ x ∈ c.operation.asked fs, fs.head? = some (c.operation.element x)
  /-- One answer settles the outcome. -/
  eq_settle : ∀ x ∈ c.operation.asked fs, fs.perform c = c.operation.settle fs (c.build x)
  /-- Nothing else that the function would answer makes a difference. -/
  congr : ∀ build, (∀ x ∈ c.operation.asked fs, build x = c.build x) →
    fs.perform ⟨c.operation, c.α, build⟩ = fs.perform c
  tag_eq : ∀ tag, c.operation = .tagged tag ∨ c.operation = .tagged? tag →
    (fs.perform c).2.position ≠ fs.position → ∃ t, fs.head? = some (.tagged t) ∧ t.tag = tag
  /-- After a call that takes nothing, all calls behave as if there had been none. -/
  void : (fs.perform c).2.position = fs.position →
    (∀ d, (fs.perform c).2.perform d = fs.perform d) ∧
    ∀ calls, (fs.perform c).2.performAll calls = fs.performAll calls ∧
      (fs.perform c).2.acceptsAll calls = fs.acceptsAll calls

theorem disciplined (fs : Fields) (c : Call) : fs.Disciplined c where
  ends := ends_perform fs c
  head?_of_asked _ := Operation.head?_of_asked
  eq_settle _ := Operation.attempt_of_asked
  congr _ := perform_congr
  tag_eq := by
    intro tag ho hne
    rcases perform_snd_cases fs c with ⟨-, x, hx, -⟩ | ⟨hs, -⟩
    · obtain ⟨t, ht, htag⟩ := Operation.tag_of_asked ho hx
      exact ⟨t, ht ▸ Operation.head?_of_asked hx, htag⟩
    · exact absurd (congrArg position hs) hne
  void := by
    intro h
    rw [perform_snd_of_position_eq h]
    exact ⟨fun _ => rfl, fun _ => ⟨rfl, rfl⟩⟩

/-- Whatever calls are made, the elements that were accepted are the first ones, as many as the
position counts, and nothing is left over exactly if they are all. Each call in between gives its
function the next element at most, moves behind it with a result or stays where it is, and takes a
tagged object under the right tag only. -/
theorem fields_in_order (vs : List Value) (calls : List Call) :
    ((ofElements vs).performAll calls).elements = vs ∧
    ((ofElements vs).performAll calls).position ≤ vs.length ∧
    (ofElements vs).acceptsAll calls = vs.take ((ofElements vs).performAll calls).position ∧
    ((((ofElements vs).performAll calls).attempt FieldParser.atEnd).1 = .ok () ↔
      (ofElements vs).acceptsAll calls = vs) ∧
    ∀ c, ((ofElements vs).performAll calls).Disciplined c := by
  have h := takes_performAll (ofElements vs) calls
  generalize (ofElements vs).performAll calls = fs at h ⊢
  generalize (ofElements vs).acceptsAll calls = ws at h ⊢
  have hpos : fs.position = ws.length := h.position_eq.trans (Nat.zero_add _)
  have hvs : vs = ws ++ fs.unread := h.unread_eq
  refine ⟨h.elements_eq, ?_, ?_, ?_, disciplined fs⟩
  · rw [hpos, hvs, List.length_append]
    exact Nat.le_add_right _ _
  · rw [hpos, hvs, List.take_left]
  · rw [attempt_atEnd_iff]
    constructor
    · intro hnil
      rw [hvs, hnil, List.append_nil]
    · intro hws
      rw [hws] at hvs
      exact List.self_eq_append_right.1 hvs

/-- A version and an object under `[1]`, where one under `[0]` may stand between them. -/
def withoutFirst : List Value :=
  [.integer (.ofInt 1), .tagged (.raw (.context 1) .ber (.primitive [3]))]

/-- Calls for these elements. The first fails and the third finds its field absent. -/
def callsWithoutFirst : List Call :=
  [⟨.tagged (.context 1), Tag, fun t => .ok t.tag⟩, ⟨.next, Tag, fun v => .ok v.tag⟩,
    ⟨.tagged? (.context 0), Tag, fun t => .ok t.tag⟩,
    ⟨.tagged? (.context 1), Tag, fun t => .ok t.tag⟩]

theorem fields_in_order_withoutFirst :
    (ofElements withoutFirst).acceptsAll callsWithoutFirst = withoutFirst ∧
    (((ofElements withoutFirst).performAll callsWithoutFirst).attempt FieldParser.atEnd).1 =
      .ok () := by
  obtain ⟨-, -, htake, hend, -⟩ := fields_in_order withoutFirst callsWithoutFirst
  have hpos : ((ofElements withoutFirst).performAll callsWithoutFirst).position = 2 := rfl
  rw [hpos] at htake
  exact ⟨htake, hend.2 htake⟩

end Fields

end Tlv
