import Tlv.Proofs.BitString
import Tlv.Proofs.Encoded
import Tlv.Value.Equality

/-! # Equal values

The DER octets of a value are one unit of definite length around its DER contents. Values can be
equal in few ways, `Value.Alike` lists them; equality is an equivalence relation, and equal values
have the same DER octets.
-/

namespace Tlv

/-- The DER contents of a value, without its identifier and length octets. -/
def Value.derContents (v : Value) : Octets := (v.encoding .der).contents

def Contents.derContents : Contents → Octets
  | .primitive s => s
  | .constructed vs => vs.flatMap Value.der

theorem Contents.contents_encoding (c : Contents) (tag : Tag) :
    (c.encoding .der tag).contents = c.derContents := by
  cases c with
  | primitive s => rfl
  | constructed vs =>
    rw [Contents.encoding, Encoding.contents, Value.encodings_eq_map, Encoding.joined_eq_flatMap,
      List.flatMap_map]
    rfl

namespace Tagged

@[simp] theorem derContents_explicit (tag : Tag) (base : Value) :
    (explicit tag base).derContents = base.der := by
  rw [derContents, Tagged.encoding, Encoding.contents, Encoding.joined, Encoding.joined,
    List.append_nil]
  rfl

@[simp] theorem derContents_implicit (tag : Tag) (base : Value) :
    (implicit tag base).derContents = base.derContents := by
  rw [derContents, Tagged.encoding, Encoding.contents_withTag]
  rfl

@[simp] theorem derContents_raw (tag : Tag) (rule : Rule) (c : Contents) :
    (raw tag rule c).derContents = c.derContents :=
  c.contents_encoding tag

end Tagged

namespace Value

theorem der_eq_frame (v : Value) : v.der = Encoding.frame v.identifier false v.derContents := by
  rw [der, octets, Encoding.octets_eq_frame, identifier_encoding, isOpen_encoding]
  rw [show Rule.indefiniteLengths .der = false from rfl, Bool.and_false, derContents]

@[simp] theorem derContents_sequence (vs : List Value) :
    (sequence vs).derContents = vs.flatMap der :=
  (Contents.constructed vs).contents_encoding _

theorem map_der_arranged (vs : List Value) : (arranged .der vs).map der = sortedDer vs :=
  List.map_mergeSort fun _ _ _ _ => rfl

@[simp] theorem derContents_set (vs : List Value) :
    (set vs).derContents = (sortedDer vs).flatten := by
  rw [derContents, encoding_set, Encoding.contents, Encoding.joined_eq_flatMap, List.flatMap_map,
    List.flatMap_def, ← map_der_arranged]
  rfl

@[simp] theorem derContents_tagged (t : Tagged) : (tagged t).derContents = t.derContents := rfl

@[simp] theorem derContents_unknown (n : UnassignedNumber) (c : Contents) :
    (unknown n c).derContents = c.derContents :=
  c.contents_encoding _

@[simp] theorem derContents_bitString (b : BitString) :
    (bitString b).derContents = UInt8.ofNat b.unused :: b.cleared := rfl

end Value

/-! ## How values can be equal -/

theorem Tagged.beq_iff {t u : Tagged} :
    t == u ↔ t.identifier = u.identifier ∧ t.derContents = u.derContents := by
  change t.beq u = true ↔ _
  rw [Tagged.beq, Bool.and_eq_true, beq_iff_eq, beq_iff_eq]

namespace Value

theorem beqAll_iff {vs ws : List Value} :
    beqAll vs ws = true ↔ List.Forall₂ (fun v w => v == w) vs ws := by
  induction vs generalizing ws with
  | nil => cases ws <;> simp [beqAll]
  | cons v vs ih => cases ws <;> simp [beqAll, ih, BEq.beq]

/-- The ways in which two values can be equal. -/
inductive Alike : Value → Value → Prop where
  | refl (v : Value) : Alike v v
  | bitString {a b : BitString} (h : a == b) : Alike (.bitString a) (.bitString b)
  | sequence {vs ws : List Value} (h : List.Forall₂ (fun v w => v == w) vs ws) :
      Alike (.sequence vs) (.sequence ws)
  | set {vs ws : List Value} (h : sortedDer vs = sortedDer ws) : Alike (.set vs) (.set ws)
  | tagged {t u : Tagged} (hi : t.identifier = u.identifier)
      (hc : t.derContents = u.derContents) : Alike (.tagged t) (.tagged u)
  | unknown (n : UnassignedNumber) {vs ws : List Value}
      (h : List.Forall₂ (fun v w => v == w) vs ws) :
      Alike (.unknown n (.constructed vs)) (.unknown n (.constructed ws))

theorem alike_of_beq {v w : Value} (h : v == w) : Alike v w := by
  rw [BEq.beq, instBEqValue] at h
  simp only at h
  unfold Value.beq at h
  split at h
  case h_3 a b => exact .bitString h
  case h_9 vs ws => exact .sequence (beqAll_iff.1 h)
  case h_10 vs ws => exact .set (eq_of_beq h)
  case h_11 t u =>
    obtain ⟨hi, hc⟩ := Tagged.beq_iff.1 h
    exact .tagged hi hc
  case h_12 n c m d =>
    rw [Bool.and_eq_true] at h
    obtain rfl := eq_of_beq h.1
    cases c with
    | primitive s =>
      cases d with
      | primitive t =>
        obtain rfl : s = t := eq_of_beq h.2
        exact .refl _
      | constructed ws => cases h.2
    | constructed vs =>
      cases d with
      | primitive t => cases h.2
      | constructed ws => exact .unknown n (beqAll_iff.1 h.2)
  case h_5 => exact .refl _
  case h_13 => cases h
  all_goals
    obtain rfl := eq_of_beq h
    exact .refl _

mutual

theorem beq_refl : ∀ v : Value, v == v
  | .boolean a => beq_self_eq_true a
  | .integer a => beq_self_eq_true a
  | .bitString _ => BitString.beq_iff.2 ⟨rfl, rfl⟩
  | .octetString a => beq_self_eq_true a
  | .null => rfl
  | .oid a => beq_self_eq_true a
  | .enumerated a => beq_self_eq_true a
  | .string a => beq_self_eq_true a
  | .sequence vs => beqAll_refl vs
  | .set vs => beq_self_eq_true (sortedDer vs)
  | .tagged _ => Tagged.beq_iff.2 ⟨rfl, rfl⟩
  | .unknown n (.primitive s) =>
    Bool.and_eq_true_iff.2 ⟨beq_self_eq_true n, beq_self_eq_true s⟩
  | .unknown n (.constructed vs) => Bool.and_eq_true_iff.2 ⟨beq_self_eq_true n, beqAll_refl vs⟩

theorem beqAll_refl : ∀ vs : List Value, beqAll vs vs = true
  | [] => rfl
  | v :: vs => by rw [beqAll, show v.beq v = true from beq_refl v, beqAll_refl vs, Bool.and_self]

end

theorem beq_iff_alike {v w : Value} : v == w ↔ Alike v w := by
  constructor
  · exact alike_of_beq
  · intro h
    cases h with
    | refl => exact beq_refl v
    | bitString h => exact h
    | sequence h => exact beqAll_iff.2 h
    | @set vs ws h => exact (beq_iff_eq (a := sortedDer vs)).2 h
    | tagged hi hc => exact Tagged.beq_iff.2 ⟨hi, hc⟩
    | unknown n h => exact Bool.and_eq_true_iff.2 ⟨beq_self_eq_true n, beqAll_iff.2 h⟩

theorem beq_symm {v w : Value} (h : v == w) : w == v := by
  rw [beq_iff_alike] at *
  cases h with
  | refl => exact .refl v
  | bitString h =>
    obtain ⟨hu, hc⟩ := BitString.beq_iff.1 h
    exact .bitString (BitString.beq_iff.2 ⟨hu.symm, hc.symm⟩)
  | sequence h =>
    refine .sequence (forall₂_imp_of_mem h fun v hv w _ hvw => ?_).flip
    exact beq_symm hvw
  | set h => exact .set h.symm
  | tagged hi hc => exact .tagged hi.symm hc.symm
  | unknown n h =>
    refine .unknown n (forall₂_imp_of_mem h fun v hv w _ hvw => ?_).flip
    exact beq_symm hvw
termination_by sizeOf v

theorem forall₂_beq_trans {us vs ws : List Value} (h : List.Forall₂ (fun v w => v == w) us vs)
    (h' : List.Forall₂ (fun v w => v == w) vs ws)
    (ht : ∀ u ∈ us, ∀ v w : Value, u == v → v == w → u == w) :
    List.Forall₂ (fun v w => v == w) us ws := by
  induction h generalizing ws with
  | nil => exact h'
  | cons h _ ih =>
    cases h' with
    | cons h' hs' =>
      rw [List.forall_mem_cons] at ht
      exact .cons (ht.1 _ _ h h') (ih hs' ht.2)

theorem beq_trans {u v w : Value} (h : u == v) (h' : v == w) : u == w := by
  rw [beq_iff_alike] at *
  cases h with
  | refl => exact h'
  | bitString h =>
    cases h' with
    | refl => exact .bitString h
    | bitString h' =>
      obtain ⟨hu, hc⟩ := BitString.beq_iff.1 h
      obtain ⟨hu', hc'⟩ := BitString.beq_iff.1 h'
      exact .bitString (BitString.beq_iff.2 ⟨hu.trans hu', hc.trans hc'⟩)
  | @sequence us vs h =>
    cases h' with
    | refl => exact .sequence h
    | sequence h' =>
      refine .sequence (forall₂_beq_trans h h' fun u hu v w h h' => ?_)
      exact beq_trans h h'
  | @set us vs h =>
    cases h' with
    | refl => exact .set h
    | set h' => exact .set (h.trans h')
  | tagged hi hc =>
    cases h' with
    | refl => exact .tagged hi hc
    | tagged hi' hc' => exact .tagged (hi.trans hi') (hc.trans hc')
  | @unknown n us vs h =>
    cases h' with
    | refl => exact .unknown n h
    | unknown _ h' =>
      refine .unknown n (forall₂_beq_trans h h' fun u hu v w h h' => ?_)
      exact beq_trans h h'
termination_by sizeOf u

/-! ## Equal values and their octets -/

theorem der_eq_of {v w : Value} (hi : v.identifier = w.identifier)
    (hc : v.derContents = w.derContents) : v.der = w.der := by
  rw [der_eq_frame, der_eq_frame w, hi, hc]

theorem map_der_eq {vs ws : List Value} (h : List.Forall₂ (fun v w => v.der = w.der) vs ws) :
    vs.map der = ws.map der := by
  induction h with
  | nil => rfl
  | cons h _ ih => rw [List.map_cons, List.map_cons, h, ih]

theorem flatMap_der_eq {vs ws : List Value} (h : List.Forall₂ (fun v w => v.der = w.der) vs ws) :
    vs.flatMap der = ws.flatMap der := by
  rw [List.flatMap_def, map_der_eq h, ← List.flatMap_def]

theorem der_eq_of_beq {v w : Value} (h : v == w) : v.der = w.der := by
  rw [beq_iff_alike] at h
  cases h with
  | refl => rfl
  | bitString h =>
    obtain ⟨hu, hc⟩ := BitString.beq_iff.1 h
    exact der_eq_of rfl (by rw [derContents_bitString, derContents_bitString, hu, hc])
  | sequence h =>
    apply der_eq_of
    · rfl
    rw [derContents_sequence, derContents_sequence]
    exact flatMap_der_eq (forall₂_imp_of_mem h fun v hv w _ hvw => der_eq_of_beq hvw)
  | set h => exact der_eq_of rfl (by rw [derContents_set, derContents_set, h])
  | tagged hi hc => exact der_eq_of hi hc
  | unknown n h =>
    apply der_eq_of
    · rfl
    rw [derContents_unknown, derContents_unknown]
    exact flatMap_der_eq (forall₂_imp_of_mem h fun v hv w _ hvw => der_eq_of_beq hvw)
termination_by sizeOf v

section

variable {vs ws : List Value} (h : List.Forall₂ (fun v w => v == w) vs ws)

include h

theorem map_der_eq_of_beq : vs.map der = ws.map der :=
  map_der_eq (h.imp fun _ _ => der_eq_of_beq)

theorem flatMap_der_eq_of_beq : vs.flatMap der = ws.flatMap der :=
  flatMap_der_eq (h.imp fun _ _ => der_eq_of_beq)

end

section

variable {v w : Value}

theorem identifier_eq_of_beq (h : v == w) : v.identifier = w.identifier := by
  cases alike_of_beq h with
  | tagged hi _ => exact hi
  | _ => rfl

theorem tag_eq_of_beq (h : v == w) : v.tag = w.tag :=
  congrArg Identifier.tag (identifier_eq_of_beq h)

theorem derContents_eq_of_beq (h : v == w) : v.derContents = w.derContents := by
  cases alike_of_beq h with
  | refl => rfl
  | bitString hb =>
    obtain ⟨hu, hc⟩ := BitString.beq_iff.1 hb
    rw [derContents_bitString, derContents_bitString, hu, hc]
  | sequence hs => rw [derContents_sequence, derContents_sequence, flatMap_der_eq_of_beq hs]
  | set hs => rw [derContents_set, derContents_set, hs]
  | tagged _ hc => exact hc
  | unknown n hs =>
    rw [derContents_unknown, derContents_unknown]
    exact flatMap_der_eq_of_beq hs

end

end Value

end Tlv
