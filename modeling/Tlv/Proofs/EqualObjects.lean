import Tlv.Proofs.Forms
import Tlv.Proofs.Subvalues
import Tlv.Tagged.Resolution

/-! # Equal objects

Equality of tagged objects looks at the DER contents alone, while taking a tag off works on the
contents as they were read. The two fit together: objects that were read under one rule and are
equal come apart in the same way, into objects that are equal again, step after step.
-/

namespace Tlv

/-- Results that are related, or the same error. -/
inductive Corresponds {ε α β : Type} (r : α → β → Prop) : Except ε α → Except ε β → Prop where
  | ok {a : α} {b : β} (h : r a b) : Corresponds r (.ok a) (.ok b)
  | error (e : ε) : Corresponds r (.error e) (.error e)

namespace Corresponds

variable {ε ε' α β γ δ : Type} {r : α → β → Prop} {q : γ → δ → Prop} {x : Except ε α}
  {y : Except ε β}

theorem of_eq {α : Type} {r : α → α → Prop} (hr : ∀ a, r a a) {x y : Except ε α} (h : x = y) :
    Corresponds r x y := by
  subst h
  cases x with
  | ok a => exact .ok (hr a)
  | error e => exact .error e

theorem imp {p : α → β → Prop} (h : Corresponds r x y) (hp : ∀ a b, r a b → p a b) :
    Corresponds p x y := by
  cases h with
  | ok h => exact .ok (hp _ _ h)
  | error e => exact .error e

theorem map {f : α → γ} {g : β → δ} (h : Corresponds r x y) (hq : ∀ a b, r a b → q (f a) (g b)) :
    Corresponds q (x.map f) (y.map g) := by
  cases h with
  | ok h => exact .ok (hq _ _ h)
  | error e => exact .error e

theorem mapError (h : Corresponds r x y) (f : ε → ε') :
    Corresponds r (x.mapError f) (y.mapError f) := by
  cases h with
  | ok h => exact .ok h
  | error e => exact .error (f e)

theorem bind {f : α → Except ε γ} {g : β → Except ε δ} (h : Corresponds r x y)
    (hq : ∀ a b, r a b → Corresponds q (f a) (g b)) : Corresponds q (x >>= f) (y >>= g) := by
  cases h with
  | ok h => exact hq _ _ h
  | error e => exact .error e

end Corresponds

/-! ## What types make of equal elements -/

namespace Value

theorem expectUniversal_of_beq (n : UInt32) {v w : Value} (h : v == w) :
    Corresponds (fun v w => v == w) (v.expectUniversal n) (w.expectUniversal n) := by
  rw [expectUniversal, expectUniversal, tag_eq_of_beq h]
  split
  · exact .ok h
  · exact .error _

end Value

section

variable {vs ws : List Value} (h : List.Forall₂ (fun v w => v == w) vs ws)

include h

theorem joinOctets_eq_of_beq : joinOctets vs = joinOctets ws := by
  induction h with
  | nil => rfl
  | @cons v w vs ws hvw _ ih =>
    cases Value.alike_of_beq hvw with
    | refl =>
      cases v with
      | octetString s => exact congrArg (Except.map (s ++ ·)) ih
      | _ => rfl
    | _ => rfl

theorem bitSegments_of_beq :
    Corresponds (List.Forall₂ fun a b => a == b) (bitSegments vs) (bitSegments ws) := by
  induction h with
  | nil => exact .ok .nil
  | @cons v w vs ws hvw _ ih =>
    cases Value.alike_of_beq hvw with
    | bitString hab => exact ih.map fun _ _ hs => .cons hab hs
    | refl =>
      cases v with
      | bitString b => exact ih.map fun _ _ hs => .cons (BitString.beq_iff.2 ⟨rfl, rfl⟩) hs
      | _ => exact .error _
    | _ => exact .error _

end

/-- Equal segments are joined to equal bit strings; those before the last have no unused bits. -/
theorem BitString.join_of_beq {as bs : List BitString}
    (h : List.Forall₂ (fun a b => a == b) as bs) :
    Corresponds (fun a b => a == b) (join as) (join bs) := by
  induction h with
  | nil => exact .ok (beq_iff.2 ⟨rfl, rfl⟩)
  | @cons a b as bs hab hs ih =>
    cases hs with
    | nil => exact .ok hab
    | cons hab' hs =>
      have hu := (beq_iff.1 hab).1
      rw [join, join, hu]
      split
      case isTrue h0 => exact ih.map fun _ _ hj => append_beq hab h0 hj
      case isFalse => exact .error _

namespace UniversalType

variable {rule : Rule}

theorem ofSegments_corresponds (u : UniversalType) {x y : Except Malformation Value}
    (h : Corresponds (fun v w => v == w) x y) :
    Corresponds (fun v w => v == w) (u.ofSegments rule x) (u.ofSegments rule y) := by
  unfold ofSegments
  split
  · exact h
  · exact .error _

/-- Equal elements are taken, or refused, alike by every type. -/
theorem ofElements_of_beq (u : UniversalType) (rule : Rule) {vs ws : List Value}
    (h : List.Forall₂ (fun v w => v == w) vs ws) :
    Corresponds (fun v w => v == w) (u.ofElements rule vs) (u.ofElements rule ws) := by
  cases u with
  | sequence => exact .ok (Value.beq_iff_alike.2 (.sequence h))
  | set =>
    refine .ok (Value.beq_iff_alike.2 (.set ?_))
    rw [Value.sortedDer, Value.map_der_eq_of_beq h, Value.sortedDer]
  | bitString =>
    apply ofSegments_corresponds
    refine (bitSegments_of_beq h).bind fun as bs hs => ?_
    exact (BitString.join_of_beq hs).bind fun a b hab => .ok hab
  | octetString | string k =>
    apply ofSegments_corresponds
    exact .of_eq Value.beq_refl (by rw [joinOctets_eq_of_beq h])
  | _ => exact .error _

end UniversalType

/-! ## One step -/

/-- Contents that differ at most in elements that are equal. -/
inductive Contents.Alike : Contents → Contents → Prop where
  | primitive (s : Octets) : Alike (.primitive s) (.primitive s)
  | constructed {vs ws : List Value} (h : List.Forall₂ (fun v w => v == w) vs ws) :
      Alike (.constructed vs) (.constructed ws)

namespace Contents

variable {c d : Contents} {rule : Rule}

theorem alike_of_derContents_eq (hc : c.Valid) (hd : d.Valid)
    (hk : c.isConstructed = d.isConstructed) (he : c.derContents = d.derContents)
    (hl : c.derContents.length < UInt64.size) : Alike c d := by
  cases c with
  | primitive s =>
    cases d with
    | primitive t =>
      obtain rfl : s = t := he
      exact .primitive s
    | constructed ws => cases hk
  | constructed vs =>
    cases d with
    | primitive t => cases hk
    | constructed ws => exact .constructed (Value.forall₂_beq_of_flatMap_der_eq hc hd hl he)

theorem Alike.ofContents (u : UniversalType) (rule : Rule) (h : c.Alike d) :
    Corresponds (fun v w => v == w) (u.ofContents rule c) (u.ofContents rule d) := by
  cases h with
  | primitive s => exact .of_eq Value.beq_refl rfl
  | constructed h => exact u.ofElements_of_beq rule h

end Contents

namespace Tagged

/-- Objects as they are read under the rule, with the same tag and the same DER contents. -/
inductive Twins (rule : Rule) : Tagged → Tagged → Prop where
  | mk (tag : Tag) {c d : Contents} (hc : c.Received rule) (hd : d.Received rule)
      (hk : c.isConstructed = d.isConstructed) (he : c.derContents = d.derContents)
      (hl : c.derContents.length < UInt64.size) : Twins rule (.raw tag rule c) (.raw tag rule d)

variable {rule : Rule} {t u : Tagged}

theorem Twins.beq (h : Twins rule t u) : t == u := by
  obtain ⟨tag, -, -, hk, he, -⟩ := h
  refine Tagged.beq_iff.2 ⟨congrArg (Identifier.mk tag) hk, ?_⟩
  rw [derContents_raw, derContents_raw, he]

theorem twins_of_beq (ht : t.Received rule) (hu : u.Received rule) (h : t == u)
    (hl : t.derContents.length < UInt64.size) : Twins rule t u := by
  obtain ⟨hi, he⟩ := Tagged.beq_iff.1 h
  cases t with
  | raw tag r c =>
    cases u with
    | raw tag' r' d =>
      obtain ⟨-, rfl, hc⟩ := ht
      obtain ⟨-, rfl, hd⟩ := hu
      obtain ⟨rfl, hk⟩ := Identifier.mk.inj hi
      rw [derContents_raw] at hl he
      rw [derContents_raw] at he
      exact ⟨tag, hc, hd, hk, he, hl⟩
    | _ => exact hu.elim
  | _ => exact ht.elim

structure Bases (rule : Rule) (v w : Value) : Prop where
  beq : v == w
  left : v.Received rule
  right : w.Received rule
  length_lt : v.der.length < UInt64.size

namespace Twins

theorem peel (h : Twins rule t u) : Corresponds (Bases rule) t.peel u.peel := by
  obtain ⟨tag, hc, hd, hk, he, hl⟩ := h
  cases Contents.alike_of_derContents_eq hc.valid_settled.1 hd.valid_settled.1 hk he hl with
  | primitive s => exact .error _
  | constructed hs =>
    cases hs with
    | nil => exact .error _
    | cons hvw hs =>
      cases hs with
      | nil =>
        rw [Contents.derContents, List.flatMap_singleton] at hl
        exact .ok ⟨hvw, hc.1, hd.1, hl⟩
      | cons => exact .error _

theorem peelTagged (h : Twins rule t u) :
    Corresponds (Twins rule) t.peelTagged u.peelTagged := by
  have htag : t.tag = u.tag := by
    obtain ⟨tag, -, -, -, -, -⟩ := h
    rfl
  rw [Tagged.peelTagged, Tagged.peelTagged, htag]
  refine h.peel.bind fun v w hb => ?_
  have twins {t u : Tagged} (hb : Bases rule (.tagged t) (.tagged u)) : Twins rule t u := by
    have hlen := (Value.tagged t).length_derContents_lt
    exact twins_of_beq hb.left hb.right hb.beq (Nat.lt_trans hlen hb.length_lt)
  cases Value.alike_of_beq hb.beq with
  | tagged => exact .ok (twins hb)
  | refl =>
    cases v with
    | tagged => exact .ok (twins hb)
    | _ => exact .error _
  | _ => exact .error _

theorem reinterpret (h : Twins rule t u) (base : Tag) :
    Corresponds (Twins rule) (t.reinterpret base) (u.reinterpret base) := by
  obtain ⟨tag, hc, hd, hk, he, hl⟩ := h
  exact .ok ⟨base, hc, hd, hk, he, hl⟩

theorem resolve (h : Twins rule t u) (isExplicit : Bool) (n : UInt32) :
    Corresponds (fun v w => v == w) (t.resolve isExplicit n) (u.resolve isExplicit n) := by
  cases isExplicit with
  | true => exact h.peel.bind fun v w hb => Value.expectUniversal_of_beq n hb.beq
  | false =>
    obtain ⟨tag, hc, hd, hk, he, hl⟩ := h
    have hcd := Contents.alike_of_derContents_eq hc.valid_settled.1 hd.valid_settled.1 hk he hl
    rw [Tagged.resolve, Tagged.resolve, if_neg Bool.false_ne_true, if_neg Bool.false_ne_true,
      resolveImplicit_eq, resolveImplicit_eq]
    split
    · exact .error _
    · exact (hcd.ofContents _ rule).mapError Error.malformed

end Twins

/-! ## Any number of steps -/

inductive Step where
  | peel
  | reinterpret (base : Tag)

def Step.take : Step → Tagged → Result Tagged
  | peel, t => t.peelTagged
  | reinterpret base, t => t.reinterpret base

def follow (t : Tagged) (steps : List Step) : Result Tagged :=
  steps.foldlM (fun t step => step.take t) t

theorem Twins.take (h : Twins rule t u) (step : Step) :
    Corresponds (Twins rule) (step.take t) (step.take u) := by
  cases step with
  | peel => exact h.peelTagged
  | reinterpret base => exact h.reinterpret base

theorem Twins.follow (h : Twins rule t u) (steps : List Step) :
    Corresponds (Twins rule) (t.follow steps) (u.follow steps) := by
  induction steps generalizing t u with
  | nil => exact .ok h
  | cons step steps ih =>
    rw [Tagged.follow, Tagged.follow, List.foldlM_cons, List.foldlM_cons]
    exact (h.take step).bind fun _ _ h => ih h

/-- The objects come apart in the same way, whatever they are declared as. -/
structure ResolvesAs (t u : Tagged) : Prop where
  resolve (isExplicit : Bool) (n : UInt32) :
    Corresponds (fun v w => v == w) (t.resolve isExplicit n) (u.resolve isExplicit n)
  peel : Corresponds (fun v w => v == w) t.peel u.peel
  peelTagged : Corresponds (fun t u => t == u) t.peelTagged u.peelTagged
  reinterpret (base : Tag) :
    Corresponds (fun t u => t == u) (t.reinterpret base) (u.reinterpret base)

theorem Twins.resolvesAs (h : Twins rule t u) : t.ResolvesAs u where
  resolve := h.resolve
  peel := h.peel.imp fun _ _ => Bases.beq
  peelTagged := h.peelTagged.imp fun _ _ => Twins.beq
  reinterpret base := (h.reinterpret base).imp fun _ _ => Twins.beq

end Tagged

namespace Value

/-- Tagged objects in values that were read under the same rule, if they are equal, are resolved
as equal values or with the same error, by every declaration, and so are the objects that the same
steps lead to from them. Lengths are 64-bit numbers, so the contents that are compared must be
fewer than `2 ^ 64` octets. -/
theorem follow_equal_objects {o p : ReaderOptions} {r s : Octets} {v w : Value} {t u : Tagged}
    (hv : ofOctets o r = .ok v) (hw : ofOctets p s = .ok w) (hr : o.rule = p.rule)
    (ht : tagged t ∈ v.subvalues) (hu : tagged u ∈ w.subvalues) (h : t == u)
    (hl : t.derContents.length < UInt64.size) (steps : List Tagged.Step) :
    Corresponds (fun t u => t == u ∧ t.ResolvesAs u) (t.follow steps) (u.follow steps) := by
  have ht : t.Received o.rule := (received_of_ofOctets hv).of_mem ht
  have hu : u.Received o.rule := hr ▸ (received_of_ofOctets hw).of_mem hu
  have htwins := Tagged.twins_of_beq ht hu h hl
  exact (htwins.follow steps).imp fun _ _ h => ⟨h.beq, h.resolvesAs⟩

def taggedSegments (b : UInt8) : Tagged :=
  .raw (.context 0) .ber (.constructed [.bitString (.ofOctets [0xAA]),
    .bitString ⟨6, [b], Nat.le_add_right 6 1, fun h => absurd h (List.cons_ne_nil b [])⟩])

theorem follow_equal_objects_segments :
    ∃ t u x y,
      ofOctets {} [0xA1, 0x80, 0xA0, 0x80, 0x03, 2, 0, 0xAA, 0x03, 2, 6, 0xFF, 0, 0, 0, 0] =
        .ok (.tagged t) ∧
      ofOctets {} [0xA1, 14, 0xA0, 12, 0x23, 0x80, 0x03, 2, 0, 0xAA, 0, 0, 0x03, 2, 6, 0xC0] =
        .ok (.tagged u) ∧
      t.follow [.reinterpret (.context 7), .peel] = .ok x ∧
      u.follow [.reinterpret (.context 7), .peel] = .ok y ∧
      Corresponds (fun v w => v == w) (x.resolve false 3) (y.resolve false 3) := by
  let t : Tagged := .raw (.context 1) .ber (.constructed [.tagged (taggedSegments 0xFF)])
  let u : Tagged := .raw (.context 1) .ber (.constructed [.tagged (taggedSegments 0xC0)])
  have hv : ofOctets {} [0xA1, 0x80, 0xA0, 0x80, 0x03, 2, 0, 0xAA, 0x03, 2, 6, 0xFF, 0, 0, 0, 0] =
      .ok (.tagged t) := by cbv
  have hw : ofOctets {} [0xA1, 14, 0xA0, 12, 0x23, 0x80, 0x03, 2, 0, 0xAA, 0, 0, 0x03, 2, 6, 0xC0] =
      .ok (.tagged u) := by cbv
  have h : t == u := by cbv
  have hl : t.derContents.length < UInt64.size := by cbv
  have hrun : Corresponds (fun t u => t == u ∧ t.ResolvesAs u) (.ok (taggedSegments 0xFF))
      (.ok (taggedSegments 0xC0)) :=
    follow_equal_objects hv hw rfl (.head _) (.head _) h hl [.reinterpret (.context 7), .peel]
  cases hrun with
  | ok hsegments => exact ⟨_, _, _, _, hv, hw, rfl, rfl, hsegments.2.resolve false 3⟩

end Value

end Tlv
