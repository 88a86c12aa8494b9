import Tlv.Proofs.Transcoding

/-! # Stricter rules

DER forbids forms that DL takes, and DL forbids forms that BER takes. No form means something else
under a laxer rule: what a stricter rule takes, a laxer one takes as an equal value.
-/

namespace Tlv

/-- The first rule takes less than the second, by one step. -/
inductive Rule.Stricter : Rule → Rule → Prop where
  | der_dl : Stricter .der .dl
  | dl_ber : Stricter .dl .ber

variable {strict lax : Rule}

namespace Rule.Stricter

variable (hs : strict.Stricter lax)

include hs

theorem lax_ne_der : lax ≠ .der := by
  cases hs <;> decide

theorem minimalForms_lax : lax.minimalForms = false := by
  cases hs <;> rfl

theorem indefiniteLengths_strict : strict.indefiniteLengths = false := by
  cases hs <;> rfl

theorem segmentedStrings_strict : strict.segmentedStrings = false := by
  cases hs <;> rfl

end Rule.Stricter

theorem LengthForm.Admits.mono (hs : strict.Stricter lax) {form : LengthForm} {n : Nat}
    (h : form.Admits strict n) : form.Admits lax n := by
  cases form with
  | short => exact h
  | long k =>
    obtain ⟨hk, hk', hn, -⟩ := h
    refine ⟨hk, hk', hn, fun hmin => ?_⟩
    cases hs.minimalForms_lax.symm.trans hmin
  | indefinite => cases hs.indefiniteLengths_strict.symm.trans h

theorem Header.Admits.mono (hs : strict.Stricter lax) {h : Header} {n : Nat}
    (ha : h.Admits strict n) : h.Admits lax n :=
  ⟨ha.1, fun _ _ => hs.minimalForms_lax, ha.2.2.mono hs⟩

mutual

theorem Wire.Admitted.mono (hs : strict.Stricter lax) :
    ∀ {w : Wire}, w.Admitted strict → w.Admitted lax
  | .primitive _ _, ha => ⟨ha.1.mono hs, ha.2⟩
  | .constructed _ _, ha => ⟨ha.1.mono hs, Wire.AllAdmitted.mono hs ha.2⟩

theorem Wire.AllAdmitted.mono (hs : strict.Stricter lax) :
    ∀ {ws : List Wire}, AllAdmitted strict ws → AllAdmitted lax ws
  | [], _ => trivial
  | _ :: _, ha => ⟨Wire.Admitted.mono hs ha.1, Wire.AllAdmitted.mono hs ha.2⟩

end

theorem UniversalType.Gives.ofPrimitive_lax (hs : strict.Stricter lax) {u : UniversalType}
    {s : Octets} {v : Value} (h : u.Gives strict (.primitive s) v) :
    u.ofPrimitive lax s = .ok v := by
  cases h with
  | false => rfl
  | true ha _ => simp [ofPrimitive, booleanOfContents, ha, hs.lax_ne_der, Except.map]
  | integer n => exact congrArg (Except.map Value.integer) (n.ofContents_octets _)
  | enumerated n => exact congrArg (Except.map Value.enumerated) (n.ofContents_octets _)
  | bitString _ =>
    exact congrArg (Except.map Value.bitString)
      (BitString.ofContents_contents fun hr => absurd hr hs.lax_ne_der)
  | oid id => exact congrArg (Except.map Value.oid) id.ofContents_octets
  | octetString s => rfl
  | null => rfl
  | string k s => rfl

namespace Value

section

variable (hs : strict.Stricter lax) {tag : Tag} {hn : tag ≠ .endOfContents} {v : Value}

include hs

theorem exists_ofContents_primitive_lax {s : Octets}
    (h : ofContents tag hn strict (.primitive s) = .ok v) :
    ∃ w, ofContents tag hn lax (.primitive s) = .ok w ∧ w == v := by
  rcases ofContents_cases h with ⟨hcls, rfl⟩ | ⟨n, rfl, rfl⟩ | ⟨u, rfl, hu⟩
  · exact ⟨_, ofContents_tagged hcls hn, Tagged.beq_iff.2 ⟨rfl, rfl⟩⟩
  · exact ⟨_, ofContents_unknown n hn, beq_refl _⟩
  · exact ⟨v, (ofContents_universal u hn).trans (hu.ofPrimitive_lax hs), beq_refl v⟩

/-- A stricter rule joins no segments, so elements that are taken are the elements of a value. -/
theorem exists_ofContents_constructed_lax {vs ws : List Value}
    (hw : List.Forall₂ (fun w v => w == v) ws vs)
    (h : ofContents tag hn strict (.constructed vs) = .ok v) :
    ∃ w, ofContents tag hn lax (.constructed ws) = .ok w ∧ w == v := by
  rcases ofContents_cases h with ⟨hcls, rfl⟩ | ⟨n, rfl, rfl⟩ | ⟨u, rfl, hu⟩
  · refine ⟨_, ofContents_tagged hcls hn, Tagged.beq_iff.2 ⟨rfl, ?_⟩⟩
    rw [Tagged.derContents_raw, Tagged.derContents_raw]
    exact flatMap_der_eq_of_beq hw
  · exact ⟨_, ofContents_unknown n hn, beq_iff_alike.2 (.unknown n hw)⟩
  · cases hu with
    | sequence => exact ⟨_, ofContents_universal .sequence hn, beq_iff_alike.2 (.sequence hw)⟩
    | set =>
      refine ⟨_, ofContents_universal .set hn, beq_iff_alike.2 (.set ?_)⟩
      rw [sortedDer, map_der_eq_of_beq hw, sortedDer]
    | bitSegments hr _ _ => cases hs.segmentedStrings_strict.symm.trans hr
    | octetSegments hr _ => cases hs.segmentedStrings_strict.symm.trans hr
    | stringSegments _ hr _ => cases hs.segmentedStrings_strict.symm.trans hr

theorem exists_denotes_lax {u : Wire} (h : u.Denotes strict v) :
    ∃ w, u.Denotes lax w ∧ w == v := by
  refine h.induct ?_ ?_
  · intro _ s v hn hv
    obtain ⟨w, hw, heq⟩ := exists_ofContents_primitive_lax hs hv
    exact ⟨w, .primitive hn hw, heq⟩
  · intro _ us vs v hn hus hv
    obtain ⟨ws, hden, heqs⟩ : ∃ ws, List.Forall₂ (Wire.Denotes lax) us ws ∧
        List.Forall₂ (fun w v => w == v) ws vs := by
      clear hv
      induction hus with
      | nil => exact ⟨[], .nil, .nil⟩
      | cons hu _ ih =>
        obtain ⟨w, hw, heq⟩ := hu
        obtain ⟨ws, hws, heqs⟩ := ih
        exact ⟨w :: ws, .cons hw hws, .cons heq heqs⟩
    obtain ⟨w, hw, heq⟩ := exists_ofContents_constructed_lax hs heqs hv
    exact ⟨w, .constructed hn hden hw, heq⟩

theorem exists_ofOctets_lax {d n : UInt64} {s : Octets} (h : ofOctets ⟨strict, d, n⟩ s = .ok v) :
    ∃ w, ofOctets ⟨lax, d, n⟩ s = .ok w ∧ w == v := by
  obtain ⟨u, hu, htaken⟩ := ofOctets_eq_ok_iff.1 h
  obtain ⟨w, hw, heq⟩ := exists_denotes_lax hs htaken.denotes
  refine ⟨w, ofOctets_eq_ok_iff.2 ⟨u, hu, ?_, htaken.depth_le, htaken.longest_le, hw⟩, heq⟩
  exact htaken.admitted.mono hs

end

/-- DL takes what DER takes, and BER what DL takes, within the same limits and as equal values. -/
theorem stricter_rules (d n : UInt64) (s : Octets) :
    (∀ v, ofOctets ⟨.der, d, n⟩ s = .ok v → ∃ w, ofOctets ⟨.dl, d, n⟩ s = .ok w ∧ w == v) ∧
    ∀ v, ofOctets ⟨.dl, d, n⟩ s = .ok v → ∃ w, ofOctets ⟨.ber, d, n⟩ s = .ok w ∧ w == v := by
  constructor
  · intro v h
    exact exists_ofOctets_lax .der_dl h
  · intro v h
    exact exists_ofOctets_lax .dl_ber h

theorem stricter_rules_taggedSet :
    ∃ w x, ofOctets ⟨.dl, 2, 12⟩
        [0xA0, 12, 0x31, 6, 0x01, 1, 0xFF, 0x03, 1, 0, 0x0E, 2, 7, 8] = .ok w ∧
      ofOctets ⟨.ber, 2, 12⟩
        [0xA0, 12, 0x31, 6, 0x01, 1, 0xFF, 0x03, 1, 0, 0x0E, 2, 7, 8] = .ok x ∧ x == w := by
  let v : Value := .tagged (.raw (.context 0) .der (.constructed
    [.set [.boolean true, .bitString .empty], .unknown ⟨14, by decide, by decide⟩
      (.primitive [7, 8])]))
  have h : ofOctets ⟨.der, 2, 12⟩
      [0xA0, 12, 0x31, 6, 0x01, 1, 0xFF, 0x03, 1, 0, 0x0E, 2, 7, 8] = .ok v := by cbv
  obtain ⟨hder, hdl⟩ := stricter_rules 2 12
    [0xA0, 12, 0x31, 6, 0x01, 1, 0xFF, 0x03, 1, 0, 0x0E, 2, 7, 8]
  obtain ⟨w, hw, -⟩ := hder v h
  obtain ⟨x, hx, heq⟩ := hdl w hw
  exact ⟨w, x, hw, hx, heq⟩

end Value

end Tlv
