import Tlv.Proofs.Contents
import Tlv.Proofs.Equality
import Tlv.Proofs.OctetOrder

/-! # What is read back

Reading the encoding of a value gives another value: bit strings have their unused bits cleared
and SET elements are sorted if the rule does so, and tagged objects have become raw. The reading
always succeeds, and equals the value unless the rule keeps the order of a SET or the unused bits
of a BIT STRING that an implicit tag hides.
-/

namespace Tlv

mutual

/-- What is read back when the value is written under a rule. -/
def Value.reread (rule : Rule) : Value → Value
  | .bitString b => .bitString (b.under rule)
  | .sequence vs => .sequence (Value.rereadAll rule vs)
  | .set vs => .set (Value.arranged rule (Value.rereadAll rule vs))
  | .tagged t => .tagged (.raw t.tag rule (t.held rule))
  | .unknown n c => .unknown n (c.reread rule)
  | v => v

/-- The contents that are read back, for a reader to whom the tag does not tell the type. -/
def Value.held (rule : Rule) : Value → Contents
  | .sequence vs => .constructed (Value.rereadAll rule vs)
  | .set vs => .constructed (Value.arranged rule (Value.rereadAll rule vs))
  | .tagged t => t.held rule
  | .unknown _ c => c.reread rule
  | v => .primitive (v.encoding rule).contents

def Tagged.held (rule : Rule) : Tagged → Contents
  | .explicit _ base => .constructed [base.reread rule]
  | .implicit _ base => base.held rule
  | .raw _ _ c => c.reread rule

def Contents.reread (rule : Rule) : Contents → Contents
  | .primitive s => .primitive s
  | .constructed vs => .constructed (Value.rereadAll rule vs)

def Value.rereadAll (rule : Rule) : List Value → List Value
  | [] => []
  | v :: vs => v.reread rule :: Value.rereadAll rule vs

end

mutual

/-- No implicit tag, at any depth, hides elements of a SET out of order or unused bits that are set.
-/
def Value.Settled : Value → Prop
  | .sequence vs | .set vs => Value.AllSettled vs
  | .tagged t => t.Settled
  | .unknown _ c => c.Settled
  | _ => True

/-- As `Settled`, with an implicit tag before the value. -/
def Value.SettledUnderTag : Value → Prop
  | .bitString b => b.cleared = b.data
  | .sequence vs => Value.AllSettled vs
  | .set vs => Value.AllSettled vs ∧ vs.Pairwise fun v w => Octets.le v.der w.der
  | .tagged t => t.Settled
  | .unknown _ c => c.Settled
  | _ => True

def Tagged.Settled : Tagged → Prop
  | .explicit _ base => base.Settled
  | .implicit _ base => base.SettledUnderTag
  | .raw _ _ c => c.Settled

def Contents.Settled : Contents → Prop
  | .primitive _ => True
  | .constructed vs => Value.AllSettled vs

def Value.AllSettled : List Value → Prop
  | [] => True
  | v :: vs => v.Settled ∧ Value.AllSettled vs

end

namespace Value

/-- An implicit tag before a SET that is out of order. -/
def hiddenSet : Value :=
  .tagged (.implicit (.context 0) (.set [.integer (.ofInt 2), .boolean true]))

theorem valid_hiddenSet : hiddenSet.Valid := ⟨by decide, trivial, trivial, trivial⟩

variable {rule : Rule} {v w : Value} {vs ws : List Value}

theorem rereadAll_eq_map (rule : Rule) (vs : List Value) :
    rereadAll rule vs = vs.map (reread rule) := by
  induction vs with
  | nil => rfl
  | cons v vs ih => rw [rereadAll, ih, List.map_cons]

theorem allSettled_iff : AllSettled vs ↔ ∀ v ∈ vs, v.Settled := by
  induction vs with
  | nil => simp [AllSettled]
  | cons v vs ih => simp [AllSettled, ih]

end Value

section

variable (rule : Rule)

mutual

theorem Value.isConstructed_held :
    ∀ v : Value, (v.held rule).isConstructed = v.identifier.constructed
  | .tagged t => Tagged.isConstructed_held t
  | .unknown _ c => Contents.isConstructed_reread c
  | .boolean _ | .integer _ | .bitString _ | .octetString _ | .null | .oid _ | .enumerated _
  | .string _ | .sequence _ | .set _ => rfl

theorem Tagged.isConstructed_held : ∀ t : Tagged, (t.held rule).isConstructed = t.isConstructed
  | .explicit _ _ => rfl
  | .implicit _ base => Value.isConstructed_held base
  | .raw _ _ c => Contents.isConstructed_reread c

theorem Contents.isConstructed_reread :
    ∀ c : Contents, (c.reread rule).isConstructed = c.isConstructed
  | .primitive _ => rfl
  | .constructed _ => rfl

end

end

namespace Value

theorem flatMap_der_arranged (hr : rule = .der) (vs : List Value) :
    (arranged rule vs).flatMap der = (sortedDer vs).flatten := by
  rw [hr, List.flatMap_def, map_der_arranged]

theorem sortedDer_eq_map (h : vs.Pairwise fun v w => Octets.le v.der w.der) :
    sortedDer vs = vs.map der :=
  List.mergeSort_of_pairwise (List.pairwise_map.2 h)

theorem sortedDer_eq_of_perm (h : vs.Perm ws) : sortedDer vs = sortedDer ws :=
  Octets.mergeSort_eq_of_perm (h.map der)

end Value

mutual

/-- What is read back equals the value, if the rule is DER or nothing out of order is hidden. -/
theorem Value.reread_beq {rule : Rule} :
    ∀ v : Value, (rule ≠ .der → v.Settled) → v.reread rule == v
  | .bitString b, _ => BitString.under_beq
  | .sequence vs, h => Value.beqAll_iff.2 (Value.rereadAll_beq vs h)
  | .set vs, h => by
    refine Value.beq_iff_alike.2 (.set ?_)
    rw [Value.sortedDer_eq_of_perm (Value.arranged_perm rule _), Value.sortedDer,
      Value.map_der_eq_of_beq (Value.rereadAll_beq vs h), Value.sortedDer]
  | .tagged t, h => by
    refine Tagged.beq_iff.2 ⟨?_, ?_⟩
    · exact congrArg (Identifier.mk t.tag) (Tagged.isConstructed_held rule t)
    · rw [Tagged.derContents_raw, Tagged.derContents_held t h]
  | .unknown n (.primitive s), _ => Value.beq_refl _
  | .unknown n (.constructed vs), h =>
    Value.beq_iff_alike.2 (.unknown n (Value.rereadAll_beq vs h))
  | .boolean _, _ | .integer _, _ | .octetString _, _ | .null, _ | .oid _, _ | .enumerated _, _
  | .string _, _ => Value.beq_refl _

theorem Value.derContents_held {rule : Rule} : ∀ v : Value,
    (rule ≠ .der → v.SettledUnderTag) → (v.held rule).derContents = v.derContents
  | .bitString b, h => by
    by_cases hr : rule = .der
    · rw [hr]
      rfl
    · refine congrArg (List.cons _) ?_
      rw [if_neg hr, if_pos rfl]
      exact (h hr).symm
  | .sequence vs, h => by
    rw [Value.derContents_sequence, ← Value.flatMap_der_eq_of_beq (Value.rereadAll_beq vs h)]
    rfl
  | .set vs, h => by
    have hs := Value.map_der_eq_of_beq (Value.rereadAll_beq vs fun hr => (h hr).1)
    rw [Value.derContents_set]
    by_cases hr : rule = .der
    · refine (Value.flatMap_der_arranged hr _).trans ?_
      rw [Value.sortedDer, hs, Value.sortedDer]
    · rw [Value.sortedDer_eq_map (h hr).2, ← hs, ← List.flatMap_def]
      cases rule with
      | der => exact absurd rfl hr
      | _ => rfl
  | .tagged t, h => Tagged.derContents_held t h
  | .unknown _ c, h => (Contents.derContents_reread c h).trans (Value.derContents_unknown _ c).symm
  | .boolean _, _ | .integer _, _ | .octetString _, _ | .null, _ | .oid _, _ | .enumerated _, _
  | .string _, _ => rfl

theorem Tagged.derContents_held {rule : Rule} : ∀ t : Tagged,
    (rule ≠ .der → t.Settled) → (t.held rule).derContents = t.derContents
  | .explicit tag base, h => by
    rw [Tagged.derContents_explicit, ← Value.der_eq_of_beq (Value.reread_beq base h)]
    exact List.append_nil _
  | .implicit tag base, h => by
    rw [Tagged.derContents_implicit, ← Value.derContents_held base h]
    rfl
  | .raw tag _ c, h => by
    rw [Tagged.derContents_raw, ← Contents.derContents_reread c h]
    rfl

theorem Contents.derContents_reread {rule : Rule} : ∀ c : Contents,
    (rule ≠ .der → c.Settled) → (c.reread rule).derContents = c.derContents
  | .primitive _, _ => rfl
  | .constructed vs, h => by
    rw [Contents.derContents, ← Value.flatMap_der_eq_of_beq (Value.rereadAll_beq vs h)]
    rfl

theorem Value.rereadAll_beq {rule : Rule} : ∀ vs : List Value,
    (rule ≠ .der → Value.AllSettled vs) →
      List.Forall₂ (fun v w => v == w) (Value.rereadAll rule vs) vs
  | [], _ => .nil
  | v :: vs, h =>
    .cons (Value.reread_beq v fun hr => (h hr).1) (Value.rereadAll_beq vs fun hr => (h hr).2)

end

/-! ## The reader gives what is read back -/

section

variable {rule : Rule}

theorem Value.arranged_rereadAll (rule : Rule) (vs : List Value) :
    Value.arranged rule (Value.rereadAll rule vs) =
      (Value.arranged rule vs).map (Value.reread rule) := by
  rw [Value.rereadAll_eq_map, Value.arranged, Value.arranged]
  split
  case isTrue hr =>
    have hder (v : Value) : (v.reread rule).der = v.der :=
      Value.der_eq_of_beq (Value.reread_beq v fun hn => absurd (eq_of_beq hr) hn)
    refine (List.map_mergeSort fun v _ w _ => ?_).symm
    rw [hder, hder]
  case isFalse => rfl

theorem Value.ofContents_held {v : Value} (hv : v.Valid) :
    Value.ofContents v.tag hv.tag_ne rule (v.held rule) = .ok (v.reread rule) := by
  cases v with
  | tagged t => exact Value.ofContents_tagged hv.cls_ne _
  | unknown n c => exact Value.ofContents_unknown n _
  | boolean b =>
    apply (Value.ofContents_universal .boolean _).trans
    exact congrArg (Except.map Value.boolean) (booleanOfContents_octet rule b)
  | integer n =>
    apply (Value.ofContents_universal .integer _).trans
    exact congrArg (Except.map Value.integer) (n.ofContents_octets _)
  | bitString b =>
    apply (Value.ofContents_universal .bitString _).trans
    exact congrArg (Except.map Value.bitString) (b.ofContents_contentsUnder rule)
  | octetString s => exact Value.ofContents_universal .octetString _
  | null => exact Value.ofContents_universal .null _
  | oid id =>
    apply (Value.ofContents_universal .oid _).trans
    exact congrArg (Except.map Value.oid) id.ofContents_octets
  | enumerated n =>
    apply (Value.ofContents_universal .enumerated _).trans
    exact congrArg (Except.map Value.enumerated) (n.ofContents_octets _)
  | string s => exact Value.ofContents_universal (.string s.kind) _
  | sequence vs => exact Value.ofContents_universal .sequence _
  | set vs => exact Value.ofContents_universal .set _

theorem Value.denotes_of_holds {v : Value} (hv : v.Valid)
    (hc : (v.wire rule).Holds rule (v.held rule)) :
    (v.wire rule).Denotes rule (v.reread rule) := by
  refine hc.denotes ?_ hv.tag_ne (Value.ofContents_held hv)
  rw [Value.wire, Encoding.tag_wire, Value.identifier_encoding]
  rfl

theorem Wire.holds_constructed {tag : Tag} {indefinite : Bool} {vs : List Value}
    (h : ∀ v ∈ vs, (v.wire rule).Denotes rule (v.reread rule)) :
    (Encoding.constructed tag indefinite (vs.map (Value.encoding rule))).wire.Holds rule
      (.constructed (vs.map (Value.reread rule))) := by
  rw [Encoding.wire, Encoding.wires_eq_map, List.map_map]
  refine .constructed ?_
  rw [List.forall₂_map_left_iff, List.forall₂_map_right_iff, List.forall₂_same]
  exact h

mutual

theorem Value.holds_held : ∀ v : Value, v.Valid → (v.wire rule).Holds rule (v.held rule)
  | .sequence vs, h => by
    rw [Value.wire, Value.encoding, Value.encodings_eq_map, Value.held, Value.rereadAll_eq_map]
    exact Wire.holds_constructed (Value.denotes_rereadAll vs h)
  | .set vs, h => by
    rw [Value.wire, Value.encoding_set, Value.held, Value.arranged_rereadAll]
    apply Wire.holds_constructed
    intro v hv
    exact Value.denotes_rereadAll vs h v ((Value.arranged_perm rule vs).mem_iff.1 hv)
  | .tagged t, h => Tagged.holds_held t h
  | .unknown n c, h => Contents.holds_reread c h _
  | .boolean _, _ | .integer _, _ | .bitString _, _ | .octetString _, _ | .null, _ | .oid _, _
  | .enumerated _, _ | .string _, _ => .primitive

theorem Tagged.holds_held :
    ∀ t : Tagged, t.Valid → (t.encoding rule).wire.Holds rule (t.held rule)
  | .explicit _ base, h =>
    .constructed (.cons (Value.denotes_of_holds h.2 (Value.holds_held base h.2)) .nil)
  | .implicit tag base, h => Encoding.holds_withTag tag (Value.holds_held base h.2)
  | .raw tag _ c, h => Contents.holds_reread c h.2 tag

theorem Contents.holds_reread : ∀ c : Contents, c.Valid → ∀ tag : Tag,
    (c.encoding rule tag).wire.Holds rule (c.reread rule)
  | .primitive _, _, _ => .primitive
  | .constructed vs, h, tag => by
    rw [Contents.encoding, Value.encodings_eq_map, Contents.reread, Value.rereadAll_eq_map]
    exact Wire.holds_constructed (Value.denotes_rereadAll vs h)

theorem Value.denotes_rereadAll : ∀ vs : List Value, Value.AllValid vs →
    ∀ v ∈ vs, (v.wire rule).Denotes rule (v.reread rule)
  | [], _ => List.forall_mem_nil _
  | v :: vs, h => List.forall_mem_cons.2
    ⟨Value.denotes_of_holds h.1 (Value.holds_held v h.1), Value.denotes_rereadAll vs h.2⟩

end

end

/-- A valid value is read back from its encoding, within the limits of the reader. -/
theorem Value.ofOctets_octets {options : ReaderOptions} {rule : Rule} {v : Value} (hv : v.Valid)
    (hr : options.rule = rule) (hw : (v.wire rule).Within options) :
    Value.ofOctets options (v.octets rule) = .ok (v.reread rule) := by
  subst hr
  exact Value.ofOctets_of_denotes hv hw (Value.denotes_of_holds hv (Value.holds_held v hv))

end Tlv
